import Labrea.Dispatch
import Labrea.HookOrder

/-! `labrea.reinit` and the hooks it registers: the names it tests, the names that hooked calls
look up, and when these are the same.
-/

namespace Labrea

open Traced.Program (emit emit_bind_run bind_of_ok bind_of_error)

/-- `hasFunction`: whether a global is other than nil. -/
def hasFunction (globals : CString → Bool) (state : LState) (fname : CString)
    : Run Bool := do
  emit (.settop state)
  emit (.push state)
  pure (globals fname)

/-- The body of the loop of `do_reinit`. -/
def reinitEntry (globals : CString → Bool) (state : LState) (func : FType)
    : Run FType := do
  let before ← hasFunction globals state (snprintf 63 "before_".toList func.name)
  let around ← hasFunction globals state (snprintf 63 "around_".toList func.name)
  let after ← hasFunction globals state (snprintf 63 "after_".toList func.name)
  pure { func with hasBefore := before, hasAround := around, hasAfter := after }

def reinitLoop (globals : CString → Bool) (state : LState)
    : List FType → Run (List FType)
  | [] => pure []
  | func :: rest => do
      let func ← reinitEntry globals state func
      let rest ← reinitLoop globals state rest
      pure (func :: rest)

/-- `do_reinit`, with the table as it leaves it. -/
def doReinit (globals : CString → Bool) (state : LState) (functions : List FType)
    : Run (List FType) := do
  emit (.ccall state)
  let functions ← lockHolder .doReinit (reinitLoop globals state functions)
  emit (.creturn state)
  pure functions

/-- What the name of a hook begins with. -/
def HookKind.stem : HookKind → CString
  | .before => "before_".toList
  | .around => "around_".toList
  | .after => "after_".toList

/-- The name of the hook of a function: `before_write`, and so on. -/
def hookName (kind : HookKind) (name : CString) : CString :=
  kind.stem ++ name

/-- The name `do_reinit` tests. -/
def testedName (kind : HookKind) (name : CString) : CString :=
  snprintf 63 kind.stem name

/-- The name `before_call`, `around_call` or `after_call` looks up. -/
def lookedUpName (kind : HookKind) (name : CString) : CString :=
  snprintf 31 kind.stem name

/-- The names of hooks of different functions or kinds differ. -/
theorem hookName_inj {kind kind' : HookKind} {name name' : CString}
    : hookName kind name = hookName kind' name' ↔ kind = kind' ∧ name = name' := by
  constructor
  · intro same
    -- two characters tell the kinds apart
    have start (kind : HookKind) (name : CString)
        : (hookName kind name).take 2 = kind.stem.take 2 := by
      cases kind <;> rfl
    have stems : kind.stem.take 2 = kind'.stem.take 2 := by rw [← start, same, start]
    have kinds : kind = kind' := by
      revert stems
      cases kind <;> cases kind' <;> decide
    subst kinds
    exact ⟨rfl, List.append_cancel_left same⟩
  · intro holds
    rcases holds with ⟨rfl, rfl⟩
    rfl

/-- A name that fits the smaller buffer is cut nowhere. -/
theorem testedName_eq {kind : HookKind} {name : CString}
    (fits : (hookName kind name).length ≤ 30)
    : testedName kind name = hookName kind name :=
  List.take_of_length_le (Nat.le_trans fits (by decide))

theorem lookedUpName_eq {kind : HookKind} {name : CString}
    (fits : (hookName kind name).length ≤ 30)
    : lookedUpName kind name = hookName kind name :=
  List.take_of_length_le fits

/-- The two buffers cut a name at one place exactly where neither cuts it. -/
theorem testedName_eq_lookedUpName {kind : HookKind} {name : CString}
    : testedName kind name = lookedUpName kind name ↔ (hookName kind name).length ≤ 30 := by
  constructor
  · intro same
    have lengths := congrArg List.length same
    rw [testedName, lookedUpName, snprintf, snprintf, List.length_take, List.length_take] at lengths
    rw [hookName]
    omega
  · intro fits
    rw [testedName_eq fits, lookedUpName_eq fits]

/-- An entry with the flags that `do_reinit` records in it. -/
def FType.flagged (globals : CString → Bool) (func : FType) : FType :=
  { func with
    hasBefore := globals (testedName .before func.name)
    hasAround := globals (testedName .around func.name)
    hasAfter := globals (testedName .after func.name) }

theorem reinitEntry_run (globals : CString → Bool) (state : LState) (func : FType)
    (thread : Thread)
    : reinitEntry globals state func thread
      = ⟨[.settop state, .push state, .settop state, .push state, .settop state, .push state],
          .ok (func.flagged globals, thread)⟩ :=
  rfl

/-- Every entry gets its flags, by induction on the table. -/
theorem reinitLoop_run (globals : CString → Bool) (state : LState) (functions : List FType)
    (thread : Thread)
    : ∃ trace,
        reinitLoop globals state functions thread
          = ⟨trace, .ok (functions.map (FType.flagged globals), thread)⟩ := by
  induction functions with
  | nil => exact ⟨[], rfl⟩
  | cons func rest ih =>
      obtain ⟨later, run⟩ := ih
      refine ⟨[.settop state, .push state, .settop state, .push state, .settop state,
        .push state] ++ (later ++ []), ?_⟩
      rw [reinitLoop, bind_of_ok (reinitEntry_run globals state func thread), bind_of_ok run]
      rfl

/-- On a thread that does not own the mutex `labrea.reinit` gives every entry its flags. -/
theorem doReinit_run (globals : CString → Bool) (state : LState) (functions : List FType)
    {thread : Thread} (unowned : thread.ownsMutex = false)
    : ∃ trace,
        doReinit globals state functions thread
          = ⟨trace, .ok (functions.map (FType.flagged globals), thread)⟩ := by
  obtain ⟨middle, run⟩ :=
    reinitLoop_run globals state functions { thread with ownsMutex := true }
  have locked : lockHolder .doReinit (reinitLoop globals state functions) thread
      = ⟨.lock .doReinit :: (middle ++ [.unlock]),
          .ok (functions.map (FType.flagged globals), thread)⟩ := by
    rw [lockHolder, bind_of_ok (lockMutex_run unowned), bind_of_ok run]
    obtain ⟨invocation, luaThread, ownsMutex, errno⟩ := thread
    cases unowned
    rfl
  refine ⟨.ccall state :: ((.lock .doReinit :: (middle ++ [.unlock])) ++ [.creturn state]), ?_⟩
  rw [doReinit, emit_bind_run, bind_of_ok locked]
  rfl

/-- A thread that owns the mutex waits for itself in `labrea.reinit`. -/
theorem doReinit_owned (globals : CString → Bool) (state : LState) (functions : List FType)
    {thread : Thread} (owned : thread.ownsMutex)
    : doReinit globals state functions thread
      = ⟨[.ccall state, .lock .doReinit], .error .deadlock⟩ := by
  have locked : lockHolder .doReinit (reinitLoop globals state functions) thread
      = ⟨[.lock .doReinit], .error .deadlock⟩ :=
    bind_of_error (lockMutex_owned owned) _
  rw [doReinit, emit_bind_run, bind_of_error locked]

-----------------------------------------------------------------------------------------
-- The hooks that run
-----------------------------------------------------------------------------------------

/-- The globals of the Lua universe, by name. -/
abbrev Globals := CString → Global

/-- Whether a global is other than nil. -/
def Globals.isSet (globals : Globals) (fname : CString) : Bool :=
  !(globals fname).isNil

/-- What a hooked call of the function `name` meets under these globals. -/
def scriptEnv (functions : List FType) (globals : Globals) (name : CString)
    (original : Original) (reread : LuaNumber → LuaNumber) : Env where
  global _ fname := (globals fname).function functions
  code _ _ := original.run functions
  dlsym _ := none
  report kind := (globals (lookedUpName kind name)).report functions
  reread := reread

/-- A top-level call on an entry of the table, under the globals, returns with this trace. -/
def Returns (table : List FType) (globals : Globals) (func : FType) (trace : List Event)
    : Prop :=
  ∃ original reread rv args thread result next,
    thread.invocation ≠ some true
    ∧ wrapper (scriptEnv table globals func.name original reread) func func.name rv args thread
      = ⟨trace, .ok (result, next)⟩

/-- The hooks that run are those that were registered: the tested and the looked-up names are
the same; a call runs the hook of a kind exactly where the global of that name is not nil,
and what it runs is that global; and calls of two functions never run one global.
-/
structure HooksAgree (globals : Globals) (table : List FType) : Prop where
  names : ∀ func ∈ table, ∀ kind, testedName kind func.name = lookedUpName kind func.name
  runs : ∀ func ∈ table, ∀ trace, Returns table globals func trace → ∀ kind,
    (∃ fname values, .hook kind fname values ∈ trace)
      ↔ globals.isSet (hookName kind func.name)
  own : ∀ func ∈ table, ∀ trace, Returns table globals func trace → ∀ kind fname values,
    .hook kind fname values ∈ trace → globals fname = globals (hookName kind func.name)
  apart : ∀ func ∈ table, ∀ func' ∈ table, ∀ trace trace',
    Returns table globals func trace → Returns table globals func' trace'
    → ∀ kind kind' fname values values',
      .hook kind fname values ∈ trace → .hook kind' fname values' ∈ trace'
      → kind = kind' ∧ func = func'

theorem scriptEnv_quiet (functions : List FType) (globals : Globals) (name : CString)
    (original : Original) (reread : LuaNumber → LuaNumber)
    : (scriptEnv functions globals name original reread).Quiet where
  global _ fname f args found := (globals fname).quiet_function functions f found args
  code _ _ := original.quiet functions
  report kind := (globals (lookedUpName kind name)).quiet_report functions
  dlsym _ := rfl

theorem Global.function_isSome (functions : List FType) (global : Global)
    : (global.function functions).isSome = !global.isNil := by
  cases global <;> rfl

theorem Env.mem_observed {env : Env} {flag : Bool} {kind kind' : HookKind}
    {fname fname' : CString} {args : List CValue} {values : List LuaValue}
    : .hook kind fname values ∈ env.observed flag kind' fname' args
      ↔ (flag ∧ (env.global kind' fname').isSome)
        ∧ kind = kind' ∧ fname = fname' ∧ values = args.map fun a => .number (addArg a) := by
  rw [Env.observed]
  by_cases runs : flag && (env.global kind' fname').isSome
  · rw [if_pos runs]
    simpa using fun _ _ _ => Bool.and_eq_true_iff.mp runs
  · rw [if_neg runs]
    rw [Bool.and_eq_true] at runs
    simp [runs]

theorem FType.hook_mainEvent {func : FType} {addr : Addr} {args : List CValue}
    {kind : HookKind} {fname : CString} {values : List LuaValue}
    : .hook kind fname values = func.mainEvent addr args
      ↔ func.hasAround
        ∧ kind = .around
        ∧ fname = lookedUpName .around func.name
        ∧ values
          = (.int (BitVec.ofNat 32 func.pos) :: args).map fun a => .number (addArg a) := by
  rw [FType.mainEvent]
  by_cases around : func.hasAround
  · rw [if_pos around, Event.hook.injEq]
    exact (and_iff_right around).symm
  · rw [if_neg around]
    refine iff_of_false (fun same => ?_) fun runs => around runs.1
    cases same

section

variable {functions : Functions} {globals : Globals}

/-- The hooks of a returned call, where the buffers cut nothing: those whose globals are set,
each under its name.
-/
theorem Returns.hook_iff {func : FType} {trace : List Event} {addr : Addr}
    (returns
      : Returns (functions.entries.map (FType.flagged globals.isSet)) globals
          (func.flagged globals.isSet) trace)
    (resolved : func.orig = some addr)
    (fits : ∀ kind, (hookName kind func.name).length ≤ 30)
    (kind : HookKind) (fname : CString)
    : (∃ values, .hook kind fname values ∈ trace)
      ↔ fname = hookName kind func.name ∧ globals.isSet fname := by
  obtain ⟨original, reread, rv, args, thread, result, next, unset, ran⟩ := returns
  let table := functions.entries.map (FType.flagged globals.isSet)
  let env := scriptEnv table globals func.name original reread
  let entry := func.flagged globals.isSet
  have resolvedEntry : entry.orig = some addr := resolved
  have main : trace.filter Event.isMain = env.mainEvents entry entry.name addr args result :=
    wrapper_mainEvents (scriptEnv_quiet table globals func.name original reread) resolvedEntry
      unset ran
  have member (values : List LuaValue)
      : .hook kind fname values ∈ trace
        ↔ .hook kind fname values ∈ env.mainEvents entry entry.name addr args result := by
    rw [← main, List.mem_filter]
    exact ⟨fun inside => ⟨inside, rfl⟩, And.left⟩
  have looked (kind : HookKind) : lookedUpName kind func.name = hookName kind func.name :=
    lookedUpName_eq (fits kind)
  have tested (kind : HookKind) : testedName kind func.name = hookName kind func.name :=
    testedName_eq (fits kind)
  have isSome (kind : HookKind) (fname : CString)
      : (env.global kind fname).isSome = globals.isSet fname :=
    Global.function_isSome table _
  simp only [member, Env.mainEvents, List.mem_append, List.mem_singleton, Env.mem_observed,
    FType.hook_mainEvent, isSome]
  constructor
  · intro holds
    rcases holds with ⟨values, (⟨⟨_, set⟩, rfl, rfl, _⟩ | ⟨flag, rfl, rfl, _⟩) | ⟨⟨_, set⟩, rfl, rfl, _⟩⟩
    · exact ⟨looked .before, set⟩
    · refine ⟨looked .around, ?_⟩
      have flagged : globals.isSet (testedName .around func.name) := flag
      rw [tested] at flagged
      rwa [show lookedUpName .around entry.name = _ from looked .around]
    · exact ⟨looked .after, set⟩
  · intro holds
    rcases holds with ⟨rfl, set⟩
    have flag : globals.isSet (testedName kind func.name) := by rwa [tested]
    have set' : globals.isSet (lookedUpName kind func.name) := by rwa [looked]
    cases kind
    case before => exact ⟨_, .inl (.inl ⟨⟨flag, set'⟩, rfl, (looked .before).symm, rfl⟩)⟩
    case around => exact ⟨_, .inl (.inr ⟨flag, rfl, (looked .around).symm, rfl⟩)⟩
    case after => exact ⟨_, .inr ⟨⟨flag, set'⟩, rfl, (looked .after).symm, rfl⟩⟩

/-- An entry of the table that `labrea.reinit` leaves. -/
theorem Functions.mem_flagged {func : FType}
    (member : func ∈ functions.entries.map (FType.flagged globals.isSet))
    : ∃ n define, functions.defs[n]? = some define
        ∧ func = (functions.entryAt n define).flagged globals.isSet := by
  obtain ⟨entry, listed, rfl⟩ := List.mem_map.mp member
  obtain ⟨n, found⟩ := List.getElem?_of_mem listed
  rw [functions.entries_getElem?] at found
  obtain ⟨define, line, rfl⟩ := Option.map_eq_some_iff.mp found
  exact ⟨n, define, line, rfl⟩

/-- Where no name is cut, the hooks that run are those that were registered. -/
theorem HooksAgree.of_fits
    (fits : ∀ define ∈ functions.defs, ∀ kind, (hookName kind define.n).length ≤ 30)
    : HooksAgree globals (functions.entries.map (FType.flagged globals.isSet)) where
  names func member kind := by
    obtain ⟨n, define, line, rfl⟩ := Functions.mem_flagged member
    exact testedName_eq_lookedUpName.mpr (fits define (List.mem_of_getElem? line) kind)
  runs func member trace returns kind := by
    obtain ⟨n, define, line, rfl⟩ := Functions.mem_flagged member
    have hooks := returns.hook_iff rfl (fits define (List.mem_of_getElem? line)) kind
    constructor
    · intro holds
      rcases holds with ⟨fname, ran⟩
      obtain ⟨rfl, set⟩ := (hooks fname).mp ran
      exact set
    · intro set
      exact ⟨_, (hooks _).mpr ⟨rfl, set⟩⟩
  own func member trace returns kind fname values ran := by
    obtain ⟨n, define, line, rfl⟩ := Functions.mem_flagged member
    obtain ⟨rfl, _⟩ :=
      (returns.hook_iff rfl (fits define (List.mem_of_getElem? line)) kind fname).mp ⟨values, ran⟩
    rfl
  apart func member func' member' trace trace' returns returns' kind kind' fname values values'
      ran ran' := by
    obtain ⟨n, define, line, rfl⟩ := Functions.mem_flagged member
    obtain ⟨n', define', line', rfl⟩ := Functions.mem_flagged member'
    obtain ⟨name, _⟩ :=
      (returns.hook_iff rfl (fits define (List.mem_of_getElem? line)) kind fname).mp ⟨values, ran⟩
    obtain ⟨name', _⟩ :=
      (returns'.hook_iff rfl (fits define' (List.mem_of_getElem? line')) kind' fname).mp
        ⟨values', ran'⟩
    obtain ⟨kinds, names⟩ := hookName_inj.mp (name.symm.trans name')
    obtain rfl := Functions.pos_unique line line' names
    obtain rfl := Option.some.inj (line.symm.trans line')
    exact ⟨kinds, rfl⟩

end

/-- A function whose before hook has a name of 32 characters. -/
def guardSizeDefine : Define where
  rv := .int
  n := "pthread_attr_setguardsize".toList
  args := [.pointer "pthread_attr_t", sizeT]

/-- A table of that function alone. -/
def guardSizeFunctions : Functions where
  defs := [guardSizeDefine]
  orig _ := 4096
  flags _ := ⟨false, false, false⟩
  distinct := by decide
  positions := by decide

/-- A script that sets that before hook and nothing else. -/
def guardSizeGlobals : Globals := fun fname =>
  if fname = "before_pthread_attr_setguardsize".toList then .value (.returns [] .nil) else .nil []

end Labrea
