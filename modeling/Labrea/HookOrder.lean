import Labrea.Discipline

/-! The hooks and the original of one top-level call, over any tree of calls made inside it.
Everything inside the window of its `LuaInvocation` runs originals only.
-/

namespace Labrea

open Traced (Monitor)
open Traced.Monitor

/-- The hooks, and the original that `wrapper` runs in place of an around hook. -/
def Event.isMain : Event → Bool
  | .hook _ _ _ | .original .direct _ _ => true
  | _ => false

/-- What has been seen of a top-level call: whether its window is open, the entry of a hooked
call that has just been entered, and the main events.
-/
structure Watch where
  opened : Bool
  entered : Option FType
  main : List Event

def Watch.next (watch : Watch) : Event → Watch
  | .enter func => { watch with entered := some func }
  | .arm => { watch with opened := true, entered := none }
  | .original .reentrant _ _ => { watch with entered := none }
  | .hook kind fname args => { watch with main := watch.main ++ [.hook kind fname args] }
  | .original .direct addr args =>
      { watch with main := watch.main ++ [.original .direct addr args] }
  | _ => watch

/-- A hooked call that is entered outside the window opens it, and one that is entered inside
runs its own original.
-/
def Watch.allows (watch : Watch) (event : Event) : Prop :=
  ∀ func, watch.entered = some func →
    (watch.opened = false ∧ event = .arm)
    ∨ (watch.opened ∧ ∃ addr args,
        event = .original .reentrant addr args ∧ func.orig = some addr)

def hookOrder : Monitor Event Halt Watch where
  next := Watch.next
  allows := Watch.allows
  mayHalt _ _ := True

/-- The main events of a trace are seen in their order, by induction on the trace. -/
theorem hookOrder_main (watch : Watch) (trace : List Event)
    : (hookOrder.after watch trace).main = watch.main ++ trace.filter Event.isMain := by
  induction trace generalizing watch with
  | nil => simp
  | cons event rest ih =>
      rw [after_cons, ih]
      cases event
      case original caller addr args =>
        cases caller <;> simp [hookOrder, Watch.next, Event.isMain, List.filter_cons]
      all_goals simp [hookOrder, Watch.next, Event.isMain, List.filter_cons]

/-- An open window stays open. -/
theorem hookOrder_opened {watch : Watch} (trace : List Event) (opened : watch.opened)
    : (hookOrder.after watch trace).opened := by
  induction trace generalizing watch with
  | nil => exact opened
  | cons event rest ih =>
      refine ih ?_
      cases event
      case original caller addr args => cases caller <;> exact opened
      case arm => rfl
      all_goals exact opened

/-- Inside an open window every hooked call is followed by its own original, in a trace that
does not end right after entering one.
-/
theorem hookOrder_enter {watch : Watch} {trace front back : List Event} {func : FType}
    (accepted : hookOrder.Accepts watch trace)
    (settled : (hookOrder.after watch trace).entered = none) (opened : watch.opened)
    (split : trace = front ++ .enter func :: back)
    : ∃ addr args rest,
        back = .original .reentrant addr args :: rest ∧ func.orig = some addr := by
  subst split
  obtain ⟨_, _, later⟩ := (accepts_append hookOrder _ _ _).mp accepted
  rw [after_append, after_cons] at settled
  cases back with
  | nil => exact nomatch settled
  | cons event rest =>
      have open' := hookOrder_opened front opened
      rcases later.1 func rfl with ⟨closed, _⟩ | ⟨_, addr, args, rfl, own⟩
      · exact absurd (open'.symm.trans closed) (by simp)
      · exact ⟨addr, args, rest, rfl, own⟩

/-- Inside the window the program performs the main events, and where it returns it leaves
the flag set.
-/
def Performs {α : Type} (main : List Event) (program : Run α) : Prop :=
  ∀ thread watch, thread.invocation = some true → watch.opened → watch.entered = none
    → hookOrder.WP program
        (fun _ next last =>
          next.invocation = some true ∧ last = { watch with main := watch.main ++ main })
        thread watch

/-- No main events. -/
abbrev Quiet {α : Type} (program : Run α) : Prop := Performs [] program

variable {α β : Type}

theorem quiet_pure {value : α} : Quiet (pure value : Run α) :=
  fun _ watch flag _ _ => wp_pure ⟨flag, by simp⟩

theorem quiet_halt {reason : Halt} : Quiet (Traced.Program.halt reason : Run α) :=
  fun _ _ _ _ _ => wp_halt trivial

theorem performs_bind {first second : List Event} {head : Run α} {rest : α → Run β}
    (one : Performs first head) (two : ∀ value, Performs second (rest value))
    : Performs (first ++ second) (head >>= rest) := by
  intro thread watch flag opened entered
  refine wp_bind ((one thread watch flag opened entered).mono ?_)
  intro value next last holds
  rcases holds with ⟨nextFlag, rfl⟩
  refine (two value next { watch with main := watch.main ++ first } nextFlag opened
    entered).mono ?_
  intro _ _ _ holds
  rcases holds with ⟨lastFlag, rfl⟩
  exact ⟨lastFlag, by simp⟩

theorem performs_after {main : List Event} {head : Run α} {rest : α → Run β}
    (quiet : Quiet head) (performs : ∀ value, Performs main (rest value))
    : Performs main (head >>= rest) :=
  performs_bind quiet performs

theorem performs_before {main : List Event} {head : Run α} {rest : α → Run β}
    (performs : Performs main head) (quiet : ∀ value, Quiet (rest value))
    : Performs main (head >>= rest) := by
  have sequence := performs_bind performs quiet
  rwa [List.append_nil] at sequence

theorem performs_ite {main : List Event} {c : Prop} [Decidable c] {yes no : Run α}
    (whenYes : c → Performs main yes) (whenNo : ¬ c → Performs main no)
    : Performs main (if c then yes else no) := by
  by_cases holds : c
  · rw [if_pos holds]
    exact whenYes holds
  · rw [if_neg holds]
    exact whenNo holds

theorem quiet_onlyIf {c : Prop} [Decidable c] {body : Run Unit} (quiet : c → Quiet body)
    : Quiet (onlyIf c body) :=
  performs_ite quiet fun _ => quiet_pure

theorem quiet_emit {event : Event} (unseen : ∀ watch : Watch, watch.next event = watch)
    : Quiet (Traced.Program.emit event) := by
  intro thread watch flag _ entered
  refine wp_emit (fun func found => absurd (entered.symm.trans found) (by simp)) ⟨flag, ?_⟩
  rw [show hookOrder.next watch event = watch from unseen watch]
  simp

theorem quiet_modify {update : Thread → Thread}
    (same : ∀ thread, (update thread).invocation = thread.invocation)
    : Quiet (Traced.Program.modify update) :=
  fun thread _ flag _ _ => wp_modify ⟨(same thread).trans flag, by simp⟩

theorem performs_get {main : List Event} {rest : Thread → Run β}
    (performs : ∀ thread, thread.invocation = some true → Performs main (rest thread))
    : Performs main (Traced.Program.get >>= rest) :=
  fun thread watch flag opened entered =>
    wp_bind (wp_get (performs thread flag thread watch flag opened entered))

-----------------------------------------------------------------------------------------
-- labrea's code inside the window
-----------------------------------------------------------------------------------------

theorem quiet_lockMutex {site : Site} : Quiet (lockMutex site) :=
  performs_after (quiet_emit fun _ => rfl) fun _ =>
    performs_get fun _ _ =>
      performs_ite (fun _ => quiet_halt) fun _ => quiet_modify fun _ => rfl

theorem quiet_unlockMutex : Quiet unlockMutex :=
  performs_after (quiet_emit fun _ => rfl) fun _ => quiet_modify fun _ => rfl

theorem performs_lockHolder {main : List Event} {site : Site} {body : Run α}
    (performs : Performs main body)
    : Performs main (lockHolder site body) :=
  performs_after quiet_lockMutex fun _ =>
    performs_before performs fun _ =>
      performs_after quiet_unlockMutex fun _ => quiet_pure

theorem quiet_antiLockHolder {body : Run α} (quiet : Quiet body)
    : Quiet (antiLockHolder body) :=
  performs_after quiet_unlockMutex fun _ =>
    performs_after quiet fun _ =>
      performs_after quiet_lockMutex fun _ => quiet_pure

theorem quiet_getLuaState : Quiet getLuaState :=
  performs_get fun _ _ =>
    quiet_onlyIf fun _ =>
      performs_lockHolder <|
        performs_after (quiet_emit fun _ => rfl) fun _ => quiet_modify fun _ => rfl

theorem performs_luaStateHolder {main : List Event} {body : Run α}
    (performs : Performs main body)
    : Performs main (luaStateHolder body) :=
  performs_after quiet_getLuaState fun _ => performs_lockHolder performs

theorem performs_pcall {main : List Event} {state : LState} {args : Nat}
    {body : Run (Except LuaValue LuaValue)} (performs : Performs main body)
    : Performs main (pcall state args body) := by
  refine performs_after (quiet_emit fun _ => rfl) fun _ => performs_before performs ?_
  intro result
  cases result with
  | ok value => exact performs_after (quiet_emit fun _ => rfl) fun _ => quiet_pure
  | error raised => exact performs_after (quiet_emit fun _ => rfl) fun _ => quiet_pure

theorem quiet_pushCall (args : List LuaValue) : Quiet (pushCall args) := by
  induction args with
  | nil => exact quiet_pure
  | cons arg rest ih => exact performs_after (quiet_emit fun _ => rfl) fun _ => ih

theorem performs_runHook {kind : HookKind} {fname : CString} {f : LuaFunction}
    {args : List LuaValue} (quiet : Quiet (f args))
    : Performs [.hook kind fname args] (runHook kind fname f args) := by
  refine performs_before ?_ fun _ => quiet
  intro thread watch flag _ entered
  exact wp_emit (fun func found => absurd (entered.symm.trans found) (by simp)) ⟨flag, rfl⟩

/-- The environment's code is quiet inside the window, and start-up has resolved the
originals.
-/
structure Env.Quiet (env : Env) : Prop where
  global : ∀ kind fname f args, env.global kind fname = some f → Labrea.Quiet (f args)
  code : ∀ addr words, Labrea.Quiet (env.code addr words)
  report : ∀ kind, Labrea.Quiet (env.report kind)
  dlsym : ∀ name, env.dlsym name = none

/-- A before or after hook is called if its global is not nil. -/
theorem performs_observerCall {env : Env} (quiet : env.Quiet) (kind : HookKind)
    (fname : CString) (args : List LuaValue)
    : Performs (if (env.global kind fname).isSome then [.hook kind fname args] else [])
        (observerCall env kind fname args) := by
  refine performs_luaStateHolder ?_
  refine performs_after (quiet_emit fun _ => rfl) fun _ => ?_
  refine performs_after (quiet_emit fun _ => rfl) fun _ => ?_
  cases found : env.global kind fname with
  | none => exact quiet_pure
  | some f =>
      have hook : Performs [.hook kind fname args] (runHook kind fname f args) :=
        performs_runHook (quiet.global kind fname f args found)
      refine performs_after (quiet_pushCall args) fun _ =>
        performs_before (performs_pcall hook) ?_
      intro result
      cases result with
      | ok value => exact quiet_pure
      | error raised => exact quiet.report kind

theorem quiet_aroundSlot {env : Env} (quiet : env.Quiet) (result : Except LuaValue LuaValue)
    : Quiet (aroundSlot env result) := by
  cases result with
  | ok value => exact quiet_pure
  | error raised => exact performs_after (quiet.report .around) fun _ => quiet_pure

/-- Calling a nil global ends in an error without any Lua code, and its message is not a
number, so that `around_call` aborts.
-/
theorem performs_callNil {env : Env} {rv : CType} {main : List Event} {args : Nat}
    (quiet : env.Quiet)
    : Performs main
        (pcall .own args callNil >>= fun result =>
          aroundSlot env result >>= fun slot =>
            if slot.isNumber then pure (rv.ofBits slot.toInteger)
            else Traced.Program.halt .abort) := by
  intro thread watch flag opened entered
  have free : ∀ event, hookOrder.allows watch event := fun _ func found =>
    absurd (entered.symm.trans found) (by simp)
  refine wp_bind (wp_bind (wp_emit (free _) (wp_bind (wp_pure (wp_bind (wp_emit (free _)
    (wp_pure ?_)))))))
  refine wp_bind (wp_bind ((quiet.report .around thread watch flag opened entered).mono ?_))
  intro _ _ _ _
  exact wp_pure (wp_ite (fun numeric => nomatch numeric) (fun _ => wp_halt trivial))

/-- Where `around_call` returns, it has called the around hook. -/
theorem performs_aroundCall {env : Env} (quiet : env.Quiet) (f : FType) (rv : CType)
    (args : List CValue)
    : Performs
        [.hook .around (snprintf 31 "around_".toList f.name)
          ((.int (BitVec.ofNat 32 f.pos) :: args).map fun a => .number (addArg a))]
        (aroundCall env f rv args) := by
  refine performs_luaStateHolder ?_
  refine performs_after (quiet_emit fun _ => rfl) fun _ => ?_
  refine performs_after (quiet_emit fun _ => rfl) fun _ => ?_
  refine performs_after (quiet_pushCall _) fun _ => ?_
  cases found : env.global .around (snprintf 31 "around_".toList f.name) with
  | none => exact performs_callNil quiet
  | some hook =>
      refine performs_before (performs_pcall (performs_runHook
        (quiet.global .around _ hook _ found))) fun result => ?_
      exact performs_after (quiet_aroundSlot quiet result) fun slot =>
        performs_ite (fun _ => quiet_pure) (fun _ => quiet_halt)

/-- `invoke` in place of an around hook. -/
theorem performs_invoke_direct {env : Env} {ft : FType} {rv : CType} {args : List CValue}
    {addr : Addr} (quiet : env.Quiet) (resolved : ft.orig = some addr)
    : Performs [.original .direct addr (args.map CValue.word)]
        (invoke env .direct ft rv args) := by
  by_cases arity : ft.numArgs = args.length
  · rw [invoke_eq arity resolved]
    refine performs_before ?_ fun _ =>
      performs_after (quiet.code _ _) fun _ =>
        performs_after (quiet_emit fun _ => rfl) fun _ => quiet_pure
    intro thread watch flag _ entered
    exact wp_emit (fun func found => absurd (entered.symm.trans found) (by simp)) ⟨flag, rfl⟩
  · rw [invoke, if_neg arity]
    exact fun _ _ _ _ _ => wp_halt trivial

/-- A hooked call inside the window runs its own original and nothing else. -/
theorem quiet_wrapper {env : Env} (quiet : env.Quiet) (func : FType) (name : CString)
    (rv : CType) (args : List CValue)
    : Quiet (wrapper env func name rv args) := by
  intro thread watch flag opened entered
  have free : ∀ event, hookOrder.allows watch event := fun _ other found =>
    absurd (entered.symm.trans found) (by simp)
  refine wp_bind (wp_emit (free _) (wp_bind ?_))
  refine wp_of_ok (luaInvocation_nested flag) trivial (wp_ite (fun ready => nomatch ready) ?_)
  intro _
  by_cases arity : func.numArgs = args.length
  · match resolved : func.orig with
    | none =>
        rw [invoke, if_pos arity, resolved, quiet.dlsym]
        exact wp_halt trivial
    | some addr =>
        rw [invoke_eq arity resolved]
        refine wp_bind (wp_emit ?_ ?_)
        · intro _ holds
          rcases holds with ⟨⟩
          exact Or.inr ⟨opened, addr, _, rfl, resolved⟩
        · have settled : Quiet (env.code addr (args.map CValue.word) >>= fun result => do
              Traced.Program.emit (.originalReturn .reentrant)
              pure (rv.ofWord result)) :=
            performs_after (quiet.code _ _) fun _ =>
              performs_after (quiet_emit fun _ => rfl) fun _ => quiet_pure
          have same : hookOrder.next (hookOrder.next watch (.enter func))
              (.original .reentrant addr (args.map CValue.word)) = watch := by
            simp [hookOrder, Watch.next, ← entered]
          rw [after_nil, same]
          exact settled thread watch flag opened entered
  · rw [invoke, if_neg arity]
    exact wp_halt trivial

theorem quiet_doUsleep {state : LState} (stack : List LuaValue)
    : Quiet (doUsleep state stack) :=
  performs_after (quiet_emit fun _ => rfl) fun _ =>
    performs_after
      (quiet_onlyIf fun _ => quiet_antiLockHolder (quiet_emit fun _ => rfl))
      fun _ => quiet_emit fun _ => rfl

theorem quiet_abstractInvoke {code : Addr → List Word → Run Word} {fun' : FType}
    {args : List (BitVec 64)} (quiet : ∀ addr words, Quiet (code addr words))
    : Quiet (abstractInvoke code fun' args) := by
  refine performs_ite (fun _ => ?_) (fun _ => quiet_halt)
  split
  case _ invoker orig _ _ =>
    split
    case _ words _ =>
      exact performs_after (quiet_emit fun _ => rfl) fun _ =>
        performs_after (quiet orig words) fun _ =>
          performs_after (quiet_emit fun _ => rfl) fun _ => quiet_pure
    · exact quiet_halt
  · exact quiet_halt

theorem quiet_doInvoke {functions : List FType} {code : Addr → List Word → Run Word}
    {state : LState} (stack : List LuaValue) (quiet : ∀ addr words, Quiet (code addr words))
    : Quiet (doInvoke functions code state stack) := by
  refine performs_after (quiet_emit fun _ => rfl) fun _ => ?_
  refine performs_ite (fun _ => quiet_halt) (fun _ => ?_)
  split
  · exact quiet_halt
  refine performs_ite (fun _ => quiet_halt) (fun _ => ?_)
  refine performs_ite (fun _ => quiet_halt) (fun _ => ?_)
  refine performs_after (quiet_antiLockHolder (quiet_abstractInvoke quiet)) fun _ => ?_
  exact performs_after (quiet_emit fun _ => rfl) fun _ =>
    performs_after (quiet_emit fun _ => rfl) fun _ =>
      performs_after (quiet_emit fun _ => rfl) fun _ => quiet_pure

theorem quiet_setErrno (errno : Option Int) : Quiet (setErrno errno) := by
  cases errno with
  | none => exact quiet_pure
  | some e => exact quiet_modify fun _ => rfl

theorem quiet_reportWith {calls : Run Unit} (quiet : Quiet calls)
    : Quiet (reportWith calls) :=
  performs_after (quiet_emit fun _ => rfl) fun _ => quiet

theorem quiet_originalWith {calls : Run Unit} {errno : Option Int} {ret : Word}
    (quiet : Quiet calls)
    : Quiet (originalWith calls errno ret) :=
  performs_after quiet fun _ => performs_after (quiet_setErrno errno) fun _ => quiet_pure

theorem quiet_luaWith {state : LState} {steps : Run Unit}
    {result : Except LuaValue LuaValue} (quiet : Quiet steps)
    : Quiet (luaWith state steps result) :=
  performs_after (quiet_emit fun _ => rfl) fun _ => performs_after quiet fun _ => quiet_pure

variable (functions : List FType)

theorem Call.quiet_of_env {call : Call} (quiet : (call.env functions).Quiet)
    : Quiet (call.run functions) := by
  rw [call.run_eq]
  exact quiet_wrapper quiet call.entry call.name call.rv call.args

mutual
/-- What a hooked call meets inside the window is quiet, by induction on its tree. -/
theorem Call.quiet_env : ∀ call : Call, (call.env functions).Quiet
  | .mk _ _ _ _ before around after original _ => {
      global := fun kind _ f args found => by
        cases kind with
        | before => exact before.quiet_function f found args
        | around => exact around.quiet_function f found args
        | after => exact after.quiet_function f found args
      code := fun _ _ => original.quiet
      report := fun kind => by
        cases kind with
        | before => exact before.quiet_report
        | around => exact around.quiet_report
        | after => exact after.quiet_report
      dlsym := fun _ => rfl }

theorem Global.quiet_function
    : ∀ (global : Global) (f : LuaFunction), global.function functions = some f
      → ∀ args, Quiet (f args)
  | .nil _, _, found, _ => nomatch found
  | .value body, _, found, _ => by
      cases found
      exact body.quiet .own

theorem Global.quiet_report : ∀ global : Global, Quiet (global.report functions)
  | .nil report => quiet_reportWith (quiet_runCalls report)
  | .value body => body.quiet_report

theorem Body.quiet (state : LState) : ∀ body : Body, Quiet (body.run functions state)
  | .returns steps _ => quiet_luaWith (quiet_runSteps state steps)
  | .raises steps _ _ => quiet_luaWith (quiet_runSteps state steps)

theorem Body.quiet_report : ∀ body : Body, Quiet (body.report functions)
  | .returns _ _ => quiet_pure
  | .raises _ _ report => quiet_reportWith (quiet_runCalls report)

theorem LuaStep.quiet (state : LState) : ∀ step : LuaStep, Quiet (step.run functions state)
  | .library errno =>
      performs_after (quiet_emit fun _ => rfl) fun _ => quiet_setErrno errno
  | .hooked call => performs_after (Call.quiet_of_env functions call.quiet_env) fun _ => quiet_pure
  | .usleep stack => quiet_doUsleep stack
  | .invoke stack original =>
      performs_after (quiet_doInvoke stack fun _ _ => original.quiet) fun _ => quiet_pure

theorem Original.quiet : ∀ original : Original, Quiet (original.run functions)
  | .mk calls _ _ => quiet_originalWith (quiet_runCalls calls)

theorem quiet_runSteps (state : LState)
    : ∀ steps : List LuaStep, Quiet (runSteps functions state steps)
  | [] => quiet_pure
  | step :: rest =>
      performs_after (step.quiet state) fun _ => quiet_runSteps state rest

theorem quiet_runCalls : ∀ calls : List Call, Quiet (runCalls functions calls)
  | [] => quiet_pure
  | call :: rest =>
      performs_after (Call.quiet_of_env functions call.quiet_env) fun _ => quiet_runCalls rest
end

-----------------------------------------------------------------------------------------
-- Top-level calls
-----------------------------------------------------------------------------------------

def Global.isNil : Global → Bool
  | .nil _ => true
  | .value _ => false

/-- The event of a before or after hook: it is called if its flag is set and its global is
not nil.
-/
def observed (flag : Bool) (global : Global) (kind : HookKind) (fname : CString)
    (args : List CValue) : List Event :=
  if flag && !global.isNil then
    [.hook kind fname (args.map fun a => .number (addArg a))]
  else
    []

/-- What runs for a top-level call itself: the around hook, or the original. -/
def Call.mainEvent (call : Call) (addr : Addr) : Event :=
  if call.entry.hasAround then
    .hook .around (snprintf 31 "around_".toList call.entry.name)
      ((.int (BitVec.ofNat 32 call.entry.pos) :: call.args).map fun a => .number (addArg a))
  else
    .original .direct addr (call.args.map CValue.word)

/-- The main events of a top-level call that gives the application `result`. -/
def Call.mainEvents (call : Call) (addr : Addr) (result : CValue) : List Event :=
  observed call.entry.hasBefore call.before .before (snprintf 31 "before_".toList call.name)
      call.args
    ++ [call.mainEvent addr]
    ++ observed call.entry.hasAfter call.after .after (snprintf 31 "after_".toList call.name)
        (result :: call.args)

/-- The event of a before or after hook: it is called if its flag is set and the global it
looks up is not nil.
-/
def Env.observed (env : Env) (flag : Bool) (kind : HookKind) (fname : CString)
    (args : List CValue) : List Event :=
  if flag && (env.global kind fname).isSome then
    [.hook kind fname (args.map fun a => .number (addArg a))]
  else
    []

/-- What runs for a top-level call on an entry: the around hook, or the original. -/
def FType.mainEvent (func : FType) (addr : Addr) (args : List CValue) : Event :=
  if func.hasAround then
    .hook .around (snprintf 31 "around_".toList func.name)
      ((.int (BitVec.ofNat 32 func.pos) :: args).map fun a => .number (addArg a))
  else
    .original .direct addr (args.map CValue.word)

/-- The main events of a top-level call that gives the application `result`. -/
def Env.mainEvents (env : Env) (func : FType) (name : CString) (addr : Addr)
    (args : List CValue) (result : CValue) : List Event :=
  env.observed func.hasBefore .before (snprintf 31 "before_".toList name) args
    ++ [func.mainEvent addr args]
    ++ env.observed func.hasAfter .after (snprintf 31 "after_".toList name) (result :: args)

theorem performs_observed {env : Env} (quiet : env.Quiet) (flag : Bool) (kind : HookKind)
    (fname : CString) (args : List CValue)
    : Performs (env.observed flag kind fname args)
        (onlyIf flag (observerCall env kind fname (args.map fun a => .number (addArg a)))) := by
  refine performs_ite (fun flagged => ?_) (fun unflagged => ?_)
  · rw [Env.observed, flagged, Bool.true_and]
    exact performs_observerCall quiet kind fname _
  · rw [Env.observed, if_neg (by simp [unflagged])]
    exact quiet_pure

theorem performs_resultOf {env : Env} (quiet : env.Quiet) {func : FType} {addr : Addr}
    (resolved : func.orig = some addr) (rv : CType) (args : List CValue)
    : Performs [func.mainEvent addr args] (resultOf env func rv args) := by
  refine performs_ite (fun around => ?_) (fun direct => ?_)
  · rw [FType.mainEvent, if_pos around]
    exact performs_aroundCall quiet func rv args
  · rw [FType.mainEvent, if_neg direct]
    exact performs_invoke_direct quiet resolved

/-- The window of a call performs its main events in order and ends with the flag reset. -/
theorem wp_window {env : Env} (quiet : env.Quiet) {func : FType} {addr : Addr}
    (resolved : func.orig = some addr) (name : CString) (rv : CType) (args : List CValue)
    {thread : Thread} (flag : thread.invocation = some true)
    : hookOrder.WP (window env func name rv args)
        (fun result next last =>
          next.invocation = some false
          ∧ last = ⟨true, none, env.mainEvents func name addr args result⟩)
        thread ⟨true, none, []⟩ := by
  refine wp_bind (wp_bind ((performs_observed quiet func.hasBefore .before _ args _
    ⟨true, none, []⟩ flag rfl rfl).mono ?_))
  intro _ _ _ holds
  rcases holds with ⟨beforeFlag, rfl⟩
  refine wp_bind ((performs_resultOf quiet resolved rv args _ _ beforeFlag rfl rfl).mono ?_)
  intro result _ _ holds
  rcases holds with ⟨resultFlag, rfl⟩
  refine wp_bind ((performs_observed quiet func.hasAfter .after _ (result :: args) _ _
    resultFlag rfl rfl).mono ?_)
  intro _ _ _ holds
  rcases holds with ⟨afterFlag, rfl⟩
  refine wp_pure (wp_bind (wp_bind (wp_emit ?_ (wp_modify (wp_pure ⟨rfl, rfl⟩)))))
  intro _ holds
  rcases holds with ⟨⟩

/-- The main events of a top-level call that returns. -/
theorem wrapper_mainEvents {env : Env} (quiet : env.Quiet) {func : FType} {addr : Addr}
    (resolved : func.orig = some addr) {name : CString} {rv : CType} {args : List CValue}
    {thread next : Thread} {trace : List Event} {result : CValue}
    (unset : thread.invocation ≠ some true)
    (ran : wrapper env func name rv args thread = ⟨trace, .ok (result, next)⟩)
    : trace.filter Event.isMain = env.mainEvents func name addr args result := by
  rw [wrapper_ready unset] at ran
  obtain ⟨rfl, returned⟩ := Traced.Outcome.mk.inj ran
  have opened : ({ thread with invocation := some true } : Thread).invocation = some true :=
    rfl
  obtain ⟨_, ended⟩ := wp_window quiet resolved name rv args opened
  rw [returned] at ended
  have main := hookOrder_main ⟨true, none, []⟩
    (window env func name rv args { thread with invocation := some true }).trace
  rw [ended.2, List.nil_append] at main
  exact main.symm

/-- A call's environment has the globals of its tree. -/
theorem Call.mainEvents_eq (call : Call) (addr : Addr) (result : CValue)
    : (call.env functions).mainEvents call.entry call.name addr call.args result
      = call.mainEvents addr result := by
  obtain ⟨func, name, rv, args, before, around, after, original, reread⟩ := call
  cases before <;> cases after <;> rfl

/-- The window of a call performs its main events in order and ends with the flag reset. -/
theorem Call.wp_window (call : Call) {addr : Addr} (resolved : call.entry.orig = some addr)
    {thread : Thread} (flag : thread.invocation = some true)
    : hookOrder.WP (window (call.env functions) call.entry call.name call.rv call.args)
        (fun result next last =>
          next.invocation = some false ∧ last = ⟨true, none, call.mainEvents addr result⟩)
        thread ⟨true, none, []⟩ := by
  refine (Labrea.wp_window (call.quiet_env functions) resolved call.name call.rv call.args
    flag).mono ?_
  intro result next last holds
  rcases holds with ⟨reset, seen⟩
  rw [Call.mainEvents_eq] at seen
  exact ⟨reset, seen⟩

/-- What the trace of a top-level call on the entry of `addr` shows: the main events in
order, and every hooked call after its own first event followed by an original of its own.
-/
structure Call.InOrder (call : Call) (addr : Addr) (trace : List Event) (result : CValue)
    : Prop where
  main : trace.filter Event.isMain = call.mainEvents addr result
  nested : ∀ front func back, trace = front ++ .enter func :: back → front ≠ []
    → ∃ own args rest,
        back = .original .reentrant own args :: rest ∧ func.orig = some own

/-- The trace of a top-level call, read off the events of its window. -/
theorem Call.inOrder_of_window {call : Call} {addr : Addr} {result : CValue}
    {trace : List Event} (accepted : hookOrder.Accepts ⟨true, none, []⟩ trace)
    (seen : hookOrder.after ⟨true, none, []⟩ trace
      = ⟨true, none, call.mainEvents addr result⟩)
    : call.InOrder addr (.enter call.entry :: .arm :: trace) result where
  main := by
    have main := hookOrder_main ⟨true, none, []⟩ trace
    rw [seen, List.nil_append] at main
    exact main.symm
  nested front func back split later := by
    -- the first two events are the call's own
    match front with
    | [] => exact absurd rfl later
    | [_] => exact nomatch split
    | _ :: _ :: rest =>
        have inside : trace = rest ++ .enter func :: back := by
          simpa using (List.cons.inj (List.cons.inj split).2).2
        exact hookOrder_enter accepted (by rw [seen]) rfl inside

/-- A top-level call of a thread with an unset flag that owns no mutex, on a resolved entry,
calls its hooks and its original in order, lets every hooked call inside run its original
only, and leaves the flag unset and the mutex unowned; it never waits for its own mutex.
Witness: the window's main events, by induction on the tree of calls inside it.
-/
theorem Call.hooksInOrder (call : Call) {addr : Addr}
    (resolved : call.entry.orig = some addr) {thread : Thread}
    (unset : thread.invocation ≠ some true) (unowned : thread.ownsMutex = false)
    : match call.run functions thread with
      | ⟨trace, .ok (result, next)⟩ =>
          call.InOrder addr trace result
          ∧ next.invocation = some false
          ∧ next.ownsMutex = false
      | ⟨_, .error reason⟩ => reason ≠ .deadlock := by
  have locking := (call.keeps functions).unowned unowned
  match ran : call.run functions thread with
  | ⟨_, .error reason⟩ =>
      rw [ran] at locking
      exact locking
  | ⟨trace, .ok (result, next)⟩ =>
      rw [ran] at locking
      rw [call.run_eq, wrapper_ready unset] at ran
      obtain ⟨rfl, returned⟩ := Traced.Outcome.mk.inj ran
      have opened : ({ thread with invocation := some true } : Thread).invocation = some true :=
        rfl
      obtain ⟨accepted, ended⟩ := call.wp_window functions resolved opened
      rw [returned] at ended
      exact ⟨Call.inOrder_of_window accepted ended.2, ended.1, locking⟩

/-- A call with a before hook returns, with its flag unset and the mutex unowned. -/
theorem writeCall_hooksInOrder
    : ∃ trace result next,
        (writeCall ⟨true, false, false⟩ (.value (.returns [] .nil))).run []
            ⟨none, false, false, 0⟩
          = ⟨trace, .ok (result, next)⟩
        ∧ (writeCall ⟨true, false, false⟩ (.value (.returns [] .nil))).InOrder 4096 trace
            result
        ∧ next.invocation = some false
        ∧ next.ownsMutex = false := by
  have unset : (⟨none, false, false, 0⟩ : Thread).invocation ≠ some true := by simp
  have ordered := Call.hooksInOrder []
    (writeCall ⟨true, false, false⟩ (.value (.returns [] .nil))) rfl unset rfl
  exact ⟨_, _, _, rfl, ordered⟩

/-- A flagged before hook whose global has become nil is passed over. -/
theorem writeCall_passes_over_nil
    : ¬ ∀ (call : Call) (thread next : Thread) (result : CValue),
        thread.invocation ≠ some true → thread.ownsMutex = false
        → (call.run [] thread).result = .ok (result, next) → call.entry.hasBefore
          → ∃ fname args, .hook .before fname args ∈ (call.run [] thread).trace := by
  intro always
  have unset : (⟨none, false, false, 0⟩ : Thread).invocation ≠ some true := by simp
  obtain ⟨fname, args, member⟩ :=
    always (writeCall ⟨true, false, false⟩ (.nil [])) _ _ _ unset rfl rfl rfl
  have kept := List.mem_filter.mpr
    ⟨member, show Event.isMain (.hook .before fname args) = true from rfl⟩
  rw [show ((writeCall ⟨true, false, false⟩ (.nil [])).run []
        ⟨none, false, false, 0⟩).trace.filter Event.isMain
      = [.original .direct 4096 [.w32 2, .w64 8192, .w64 5]] from rfl] at kept
  simp at kept

end Labrea
