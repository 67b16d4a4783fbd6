import Labrea.CallFrame
import Labrea.Originals

/-! The way of a call through an around hook that invokes its original on what it received:
what the original gets, what the application gets back, and for which values these are what
they are without the hook.
-/

namespace Labrea

open Traced.Program (emit)

/-- The width that stands for a C type in a signature. -/
def CType.width (type : CType) : Width :=
  if type.size = 4 then .w4 else .w8

theorem CType.size_width (type : CType) : type.width.size = type.size := by
  cases type <;> rfl

/-- What an original is passed for a value that went through Lua: `add_arg`, `lua_tointeger`
and a read of the union member of its width.
-/
def CValue.passed (value : CValue) : Word :=
  (fargtype value.type.width).read (addArg value).toInteger

/-- What the application gets for a result that went through Lua: the invoker's cast,
`lua_pushinteger`, `lua_tointeger` and the cast to the result type.
-/
def CType.passedBack (rv : CType) (word : Word) : CValue :=
  rv.ofBits (pushInteger ((uintType rv.width).toInteger word)).toInteger

theorem setWidth_signExtend (bits : BitVec 32) : (bits.signExtend 64).setWidth 32 = bits := by
  ext i inside
  rw [BitVec.getElem_setWidth, BitVec.getLsbD_signExtend]
  simp [inside, Nat.lt_trans inside]

/-- An `int` comes back from Lua as it was pushed. -/
theorem toInteger_addArg_int (bits : BitVec 32)
    : (addArg (.int bits)).toInteger = bits.signExtend 64 :=
  toInteger_addArg.mpr ((CValue.exact_iff_fits _).mpr (fits_signExtend bits))

/-- An original is passed the value itself exactly where the value is exact. -/
theorem CValue.passed_eq_word {value : CValue} : value.passed = value.word ↔ value.Exact := by
  have back := @toInteger_addArg value
  cases value
  case int bits =>
    refine iff_of_true ?_ ((exact_iff_fits _).mpr (fits_signExtend bits))
    simp [passed, toInteger_addArg_int, word, type, CType.width, CType.size, fargtype,
      FargMember.read, setWidth_signExtend]
  case unsignedInt bits =>
    have exact := back.mpr ((exact_iff_fits _).mpr (fits_setWidth bits))
    refine iff_of_true ?_ ((exact_iff_fits _).mpr (fits_setWidth bits))
    simp [passed, exact, widened, word, type, CType.width, CType.size, fargtype,
      FargMember.read]
  all_goals
    rw [← back]
    simp [passed, widened, word, type, CType.width, CType.size, fargtype, FargMember.read]

/-- A result of a 4-byte invoker survives the way through a Lua number. -/
theorem toInteger_uint32 (word : Word)
    : (pushInteger (UIntType.uint32.toInteger word)).toInteger
      = UIntType.uint32.toInteger word := by
  cases word with
  | w32 bits => exact toInteger_pushInteger.mpr (fits_setWidth bits)
  | w64 bits => exact toInteger_pushInteger.mpr (fits_setWidth (bits.setWidth 32))

/-- The application gets the original's result exactly where that is exact. -/
theorem CType.passedBack_eq {rv : CType} {word : Word}
    : rv.passedBack word = rv.ofWord word ↔ (rv.ofWord word).Exact := by
  rw [CValue.exact_iff_fits]
  cases rv
  case int =>
    refine iff_of_true ?_ (by cases word <;> exact fits_signExtend _)
    rw [passedBack, show uintType CType.int.width = .uint32 from rfl, toInteger_uint32]
    cases word <;> simp [ofWord, ofBits, UIntType.toInteger]
  case unsignedInt =>
    refine iff_of_true ?_ (by cases word <;> exact fits_setWidth _)
    rw [passedBack, show uintType CType.unsignedInt.width = .uint32 from rfl,
      toInteger_uint32]
    cases word <;> simp [ofWord, ofBits, UIntType.toInteger]
  all_goals
    cases word <;>
      simp [passedBack, ofWord, ofBits, CValue.widened, width, size, uintType,
        UIntType.toInteger, toInteger_pushInteger]

/-- The code of an entry after start-up is that of its signature. -/
theorem Functions.entryAt_offset (functions : Functions) (n : Nat) (define : Define)
    : (functions.entryAt n define).offset.toNat
      = encode define.rv.width (define.args.map CType.width) := by
  have widths : define.entry.argWidths = (define.args.map CType.width).map Width.size := by
    simp only [Define.entry, List.map_map, Function.comp_def, CType.size_width]
  have bound : (define.args.map CType.width).length ≤ maxArgs := by
    rw [List.length_map]
    exact define.arity.2.trans (by decide)
  obtain ⟨offset, computed, code⟩ :=
    @computeOffset_encode { define.entry with pos := n } define.rv.width _
      (List.length_map _).symm define.rv.size_width.symm widths bound
  rw [define.computeOffset_entry, Option.some.injEq] at computed
  rw [← code, ← computed]
  rfl

/-- `abstractInvoke` finds the invoker generated for the signature of the entry. -/
theorem invokerOf_entryAt (functions : Functions) (n : Nat) (define : Define)
    : invokerOf (functions.entryAt n define)
      = some (gen define.args.length define.rv.width (define.args.map CType.width)) := by
  have length : (define.args.map CType.width).length = define.args.length :=
    List.length_map _
  have emitted : gen define.args.length define.rv.width (define.args.map CType.width)
      ∈ invokers 5 := by
    refine mem_invokers.mpr ⟨_, _, ?_, ?_, by rw [length]⟩
    · exact length ▸ define.arity.1
    · exact length ▸ define.arity.2
  have found := filter_key_eq_singleton (invokers_names_nodup 5) emitted
  rw [invokerOf, functions.entryAt_offset]
  simp only [show (functions.entryAt n define).numArgs = define.args.length from rfl,
    invokerTable_encode length, Option.join_some, Option.bind_eq_bind, Option.bind_some]
  rw [← List.head?_filter]
  exact congrArg List.head? found

/-- Each argument is read from its own union, where enough of them have been written; by
induction on the widths after any that have been read.
-/
theorem callArgs_eq (front args : List (BitVec 64)) (seq : List Width)
    : callArgs (seq.mapIdx fun i width => (front.length + i, fargtype width)) (front ++ args)
      = if seq.length ≤ args.length then
          some (List.zipWith (fun width bits => (fargtype width).read bits) seq args)
        else
          none := by
  induction seq generalizing front args with
  | nil => exact (if_pos (Nat.zero_le _)).symm
  | cons width later ih =>
      rw [callArgs, List.mapIdx_cons, List.mapM_cons]
      cases args with
      | nil => simp
      | cons bits rest =>
          have next := ih (front ++ [bits]) rest
          rw [List.append_assoc, List.singleton_append, List.length_append,
            List.length_singleton] at next
          have shifted
              : (later.mapIdx fun i width => (front.length + (i + 1), fargtype width))
                = later.mapIdx fun i width => (front.length + 1 + i, fargtype width) := by
            simp only [Nat.add_assoc, Nat.add_comm 1]
          rw [callArgs] at next
          rw [shifted, next]
          by_cases enough : later.length ≤ rest.length
          · simp [enough]
          · simp [enough]

/-- The invoker of a signature reads its arguments where enough of them have been written. -/
theorem callArgs_gen {n : Nat} {r : Width} {seq : List Width} (args : List (BitVec 64))
    : callArgs (gen n r seq).callargs args
      = if seq.length ≤ args.length then
          some (List.zipWith (fun width bits => (fargtype width).read bits) seq args)
        else
          none := by
  have read := callArgs_eq [] args seq
  simp only [List.length_nil, Nat.zero_add, List.nil_append] at read
  exact read

/-- The invoker of an entry reads what the original is passed. -/
theorem callArgs_passed {types : List CType} {r : Width} {args : List CValue}
    (typed : args.map CValue.type = types)
    : callArgs (gen types.length r (types.map CType.width)).callargs
        (args.map fun arg => (addArg arg).toInteger)
      = some (args.map CValue.passed) := by
  subst typed
  rw [callArgs_gen, if_pos (by simp), List.map_map, List.zipWith_map, List.zipWith_self]
  rfl

/-- `abstractInvoke` of an entry goes through the invoker of its signature, and reads what
that invoker passes.
-/
theorem abstractInvoke_at {functions : Functions} {n : Nat} {define : Define}
    {code : Addr → List Word → Run Word} {args : List (BitVec 64)}
    : abstractInvoke code (functions.entryAt n define) args
      = match callArgs (gen define.args.length define.rv.width
            (define.args.map CType.width)).callargs args with
        | some words => do
            emit (.original .script (functions.orig define.n) words)
            let result ← code (functions.orig define.n) words
            emit (.originalReturn .script)
            pure ((uintType define.rv.width).toInteger result)
        | none => Traced.Program.halt .undefined := by
  have arity : 1 ≤ (functions.entryAt n define).numArgs
      ∧ (functions.entryAt n define).numArgs ≤ 5 := define.arity
  rw [abstractInvoke, if_pos arity, invokerOf_entryAt]
  simp only [show (functions.entryAt n define).orig = some (functions.orig define.n) from rfl]
  rfl

/-- `abstractInvoke` of an entry calls the entry's original. -/
theorem abstractInvoke_entryAt {functions : Functions} {n : Nat} {define : Define}
    {code : Addr → List Word → Run Word} {args : List CValue}
    (typed : args.map CValue.type = define.args)
    : abstractInvoke code (functions.entryAt n define)
        (args.map fun arg => (addArg arg).toInteger)
      = (do
          emit (.original .script (functions.orig define.n) (args.map CValue.passed))
          let result ← code (functions.orig define.n) (args.map CValue.passed)
          emit (.originalReturn .script)
          pure ((uintType define.rv.width).toInteger result)) := by
  rw [abstractInvoke_at]
  simp only [callArgs_passed typed]

/-- `do_invoke` on the position of an entry. -/
theorem doInvoke_at {functions : Functions} {n : Nat} {define : Define}
    {code : Addr → List Word → Run Word} {state : LState} {stack : List LuaValue}
    (found : functions.defs[n]? = some define)
    (position : ((stackInteger stack 0).setWidth 32).toInt = n)
    : doInvoke functions.entries code state stack
      = (do
          emit (.ccall state)
          let args := (stack.drop 1).map LuaValue.toInteger
          if maxArgs < args.length then
            Traced.Program.halt .undefined
          else do
            let rv ← antiLockHolder (abstractInvoke code (functions.entryAt n define) args)
            emit (.settop state)
            emit (.push state)
            emit (.creturn state)
            pure (.number (pushInteger rv))) := by
  obtain ⟨inside, _⟩ := List.getElem?_eq_some_iff.mp found
  have entry : (functions.entries ++ [nullEntry])[n]? = some (functions.entryAt n define) := by
    rw [List.getElem?_append_left (by simpa [Functions.entries] using inside),
      functions.entries_getElem?, found, Option.map_some]
  exact doInvoke_found position entry rfl

/-- `do_invoke` finds the entry whose position an around hook was given. -/
theorem doInvoke_entryAt {functions : Functions} {n : Nat} {define : Define}
    {code : Addr → List Word → Run Word} {state : LState} {args : List CValue}
    (found : functions.defs[n]? = some define)
    (typed : args.map CValue.type = define.args)
    : doInvoke functions.entries code state
        ((.int (BitVec.ofNat 32 n) :: args).map fun a => .number (addArg a))
      = (do
          emit (.ccall state)
          let rv ← antiLockHolder (abstractInvoke code (functions.entryAt n define)
            (args.map fun arg => (addArg arg).toInteger))
          emit (.settop state)
          emit (.push state)
          emit (.creturn state)
          pure (.number (pushInteger rv))) := by
  obtain ⟨inside, _⟩ := List.getElem?_eq_some_iff.mp found
  have small : n < 2 ^ 31 := inside.trans functions.positions
  have offset : ((stackInteger ((.int (BitVec.ofNat 32 n) :: args).map
      fun a => LuaValue.number (addArg a)) 0).setWidth 32).toInt = n := by
    simp only [stackInteger, List.map_cons, List.getElem?_cons_zero, Option.map_some,
      Option.getD_some, LuaValue.toInteger, LuaValue.tonumber, toInteger_addArg_int,
      setWidth_signExtend]
    have value : (BitVec.ofNat 32 n).toNat = n := by
      rw [BitVec.toNat_ofNat]
      omega
    rw [BitVec.toInt_eq_toNat_of_lt (by omega), value]
  have ints : (((.int (BitVec.ofNat 32 n) :: args).map
      fun a => LuaValue.number (addArg a)).drop 1).map LuaValue.toInteger
      = args.map fun arg => (addArg arg).toInteger := by
    simp [LuaValue.toInteger, LuaValue.tonumber]
  have short : ¬ maxArgs < (args.map fun arg => (addArg arg).toInteger).length := by
    have arity := define.arity.2
    rw [← typed, List.length_map] at arity
    rw [List.length_map, maxArgs]
    omega
  rw [doInvoke_at found offset]
  simp only [ints, short, if_false]

-----------------------------------------------------------------------------------------
-- A call through the hook
-----------------------------------------------------------------------------------------

/-- `return labrea.invoke(...)` on exactly the received values. -/
def passThrough (functions : List FType) (code : Addr → List Word → Run Word)
    : LuaFunction :=
  fun values => do
    emit (.lua .own)
    let value ← doInvoke functions code .own values
    pure (.ok value)

/-- The original of a call that has the pass-through hook runs from this state. -/
def Thread.released (thread : Thread) : Thread :=
  { thread with invocation := some true, luaThread := true, ownsMutex := false }

/-- An environment with the pass-through hook and no other. -/
def passThroughEnv (functions : List FType) (code : Addr → List Word → Run Word) : Env where
  global
    | .around, _ => some (passThrough functions code)
    | _, _ => none
  code := code
  dlsym := fun _ => none
  report := fun _ => pure ()
  reread := id

/-- What the pass-through hook is called with. -/
def hookValues (pos : Nat) (args : List CValue) : List LuaValue :=
  (.int (BitVec.ofNat 32 pos) :: args).map fun a => .number (addArg a)

/-- What `around_call` does under its lock before the original that the hook invokes. -/
def aroundFront (func : FType) (values : List LuaValue) : List Event :=
  .settop .own :: .push .own
    :: (values.map (fun _ => .push .own)
      ++ [.pcall .own values.length,
        .hook .around (snprintf 31 "around_".toList func.name) values, .lua .own,
        .ccall .own, .unlock])

/-- What it does after that. -/
def aroundBack : List Event :=
  [.originalReturn .script, .lock .antiLockHolder, .settop .own, .push .own, .creturn .own,
    .pcallReturn .own]

section

variable {functions : Functions} {n : Nat} {define : Define}
  {code : Addr → List Word → Run Word} {args : List CValue} {thread : Thread}

open Traced.Program (Encloses emit_run)

theorem encloses_abstractInvoke (typed : args.map CValue.type = define.args)
    : Encloses
        (abstractInvoke code (functions.entryAt n define)
          (args.map fun arg => (addArg arg).toInteger))
        thread [.original .script (functions.orig define.n) (args.map CValue.passed)]
        (code (functions.orig define.n) (args.map CValue.passed)) thread
        [.originalReturn .script]
        (fun word next => ((uintType define.rv.width).toInteger word, next)) := by
  rw [abstractInvoke_entryAt typed]
  exact Encloses.after (emit_run _ _) (Encloses.self.before fun _ _ _ _ => rfl)

/-- `labrea.invoke` runs the original once, with the mutex released. -/
theorem encloses_doInvoke (found : functions.defs[n]? = some define)
    (typed : args.map CValue.type = define.args)
    (leaves : ∀ trace word next,
      code (functions.orig define.n) (args.map CValue.passed) { thread with ownsMutex := false }
        = ⟨trace, .ok (word, next)⟩
      → next.ownsMutex = false)
    : Encloses
        (doInvoke functions.entries code .own (hookValues n args)) thread
        [.ccall .own, .unlock,
          .original .script (functions.orig define.n) (args.map CValue.passed)]
        (code (functions.orig define.n) (args.map CValue.passed))
        { thread with ownsMutex := false }
        [.originalReturn .script, .lock .antiLockHolder, .settop .own, .push .own,
          .creturn .own]
        (fun word next =>
          (.number (pushInteger ((uintType define.rv.width).toInteger word)),
            { next with ownsMutex := true })) := by
  rw [hookValues, doInvoke_entryAt found typed]
  have called : Encloses
      (abstractInvoke code (functions.entryAt n define)
        (args.map fun arg => (addArg arg).toInteger))
      { thread with ownsMutex := false } _ _ _ _ _ :=
    encloses_abstractInvoke typed
  have released := encloses_antiLockHolder called leaves
  exact Encloses.after (emit_run _ _) (released.before fun _ _ _ _ => rfl)

/-- `around_call` with the pass-through hook runs the original once. -/
theorem encloses_aroundBody (found : functions.defs[n]? = some define)
    (typed : args.map CValue.type = define.args)
    (leaves : ∀ trace word next,
      code (functions.orig define.n) (args.map CValue.passed) { thread with ownsMutex := false }
        = ⟨trace, .ok (word, next)⟩
      → next.ownsMutex = false)
    : Encloses
        (aroundBody (passThroughEnv functions.entries code) (functions.entryAt n define)
          define.rv args)
        thread
        (aroundFront (functions.entryAt n define) (hookValues n args)
          ++ [.original .script (functions.orig define.n) (args.map CValue.passed)])
        (code (functions.orig define.n) (args.map CValue.passed))
        { thread with ownsMutex := false }
        aroundBack
        (fun word next => (define.rv.passedBack word, { next with ownsMutex := true })) := by
  have invoked : Encloses (doInvoke functions.entries code .own (hookValues n args))
      thread _ _ _ _ _ :=
    encloses_doInvoke found typed leaves
  have hooked : Encloses
      (runHook .around (snprintf 31 "around_".toList (functions.entryAt n define).name)
        (passThrough functions.entries code) (hookValues n args)) thread _ _ _ _
      (fun word next =>
        (.ok (.number (pushInteger ((uintType define.rv.width).toInteger word))),
          { next with ownsMutex := true })) :=
    Encloses.after (emit_run _ _)
      (Encloses.after (emit_run _ _) (invoked.before fun _ _ _ _ => rfl))
  have front : aroundFront (functions.entryAt n define) (hookValues n args)
        ++ [.original .script (functions.orig define.n) (args.map CValue.passed)]
      = .settop .own :: .push .own
        :: ((hookValues n args).map (fun _ => .push .own)
          ++ [.pcall .own (hookValues n args).length,
            .hook .around (snprintf 31 "around_".toList (functions.entryAt n define).name)
              (hookValues n args), .lua .own, .ccall .own, .unlock,
            .original .script (functions.orig define.n) (args.map CValue.passed)]) := by
    simp only [aroundFront, List.append_assoc, List.cons_append, List.nil_append]
  rw [front]
  exact Encloses.after (emit_run _ _)
    (Encloses.after (emit_run _ _)
      (Encloses.after (pushCall_run _ _)
        ((encloses_pcall hooked).before fun _ _ _ _ => rfl)))

end

/-- The original of a call is run. -/
def Event.isOriginal : Event → Bool
  | .original _ _ _ => true
  | _ => false

/-- A flagged before or after hook whose global is nil. -/
def nilEvents (flag luaThread : Bool) : List Event :=
  if flag then
    stateEvents luaThread ++ [.lock .luaStateHolder, .settop .own, .push .own, .unlock]
  else
    []

theorem nilEvents_filter (flag luaThread : Bool)
    : (nilEvents flag luaThread).filter Event.isOriginal = [] := by
  cases flag <;> cases luaThread <;> rfl

/-- A before or after hook whose global is nil only visits the lock. -/
theorem onlyIf_observerCall_nil {env : Env} {kind : HookKind} (flag : Bool)
    (fname : CString) (values : List LuaValue) {thread : Thread}
    (missing : env.global kind fname = none) (unowned : thread.ownsMutex = false)
    : onlyIf flag (observerCall env kind fname values) thread
      = ⟨nilEvents flag thread.luaThread,
          .ok ((), { thread with luaThread := flag || thread.luaThread })⟩ := by
  have nil : observerCall env kind fname values
      = luaStateHolder (do emit (.settop .own); emit (.push .own); pure ()) := by
    rw [observerCall, observerBody, missing]
  obtain ⟨invocation, luaThread, ownsMutex, errno⟩ := thread
  cases unowned
  rw [nil]
  cases flag <;> cases luaThread <;> rfl

theorem aroundFront_filter (func : FType) (values : List LuaValue)
    : (aroundFront func values).filter Event.isOriginal = [] := by
  simp [aroundFront, Event.isOriginal]

section

variable {functions : Functions} {n : Nat} {define : Define}
  {code : Addr → List Word → Run Word} {args : List CValue} {thread : Thread}

open Traced.Program (Encloses emit_run)

/-- `wrapper` has the original run by the hook. -/
theorem encloses_resultOf (found : functions.defs[n]? = some define)
    (typed : args.map CValue.type = define.args)
    (around : (functions.entryAt n define).hasAround) (unowned : thread.ownsMutex = false)
    (leaves : ∀ trace word next,
      code (functions.orig define.n) (args.map CValue.passed)
          { thread with luaThread := true, ownsMutex := false }
        = ⟨trace, .ok (word, next)⟩
      → next.ownsMutex = false)
    : Encloses
        (resultOf (passThroughEnv functions.entries code) (functions.entryAt n define)
          define.rv args)
        thread
        (stateEvents thread.luaThread ++ .lock .luaStateHolder
          :: (aroundFront (functions.entryAt n define) (hookValues n args)
            ++ [.original .script (functions.orig define.n) (args.map CValue.passed)]))
        (code (functions.orig define.n) (args.map CValue.passed))
        { thread with luaThread := true, ownsMutex := false }
        (aroundBack ++ [.unlock])
        (fun word next => (define.rv.passedBack word, { next with ownsMutex := false })) := by
  rw [resultOf, if_pos around]
  have body := @encloses_aroundBody functions n define code args
    { thread with luaThread := true, ownsMutex := true } found typed leaves
  exact encloses_luaStateHolder unowned body

/-- What `wrapper` does in its window before the original that the hook invokes. -/
def windowFront (thread : Thread) (func : FType) (values : List LuaValue) : List Event :=
  nilEvents func.hasBefore thread.luaThread
    ++ stateEvents (func.hasBefore || thread.luaThread)
    ++ .lock .luaStateHolder :: aroundFront func values

theorem windowFront_filter (thread : Thread) (func : FType) (values : List LuaValue)
    : (windowFront thread func values).filter Event.isOriginal = [] := by
  have state (luaThread : Bool) : (stateEvents luaThread).filter Event.isOriginal = [] := by
    cases luaThread <;> rfl
  simp [windowFront, aroundFront_filter, nilEvents_filter, state, Event.isOriginal]

theorem encloses_passThrough (found : functions.defs[n]? = some define)
    (typed : args.map CValue.type = define.args)
    (around : (functions.entryAt n define).hasAround) (unowned : thread.ownsMutex = false)
    (leaves : ∀ trace word next,
      code (functions.orig define.n) (args.map CValue.passed)
          { thread with luaThread := true, ownsMutex := false }
        = ⟨trace, .ok (word, next)⟩
      → next.ownsMutex = false ∧ next.luaThread)
    : Encloses
        (hookedCall (passThroughEnv functions.entries code) (functions.entryAt n define)
          define.n define.rv args)
        thread
        (windowFront thread (functions.entryAt n define) (hookValues n args)
          ++ [.original .script (functions.orig define.n) (args.map CValue.passed)])
        (code (functions.orig define.n) (args.map CValue.passed))
        { thread with luaThread := true, ownsMutex := false }
        (aroundBack ++ [.unlock] ++ nilEvents (functions.entryAt n define).hasAfter true)
        (fun word next =>
          (define.rv.passedBack word,
            { next with luaThread := true, ownsMutex := false })) := by
  let env := passThroughEnv functions.entries code
  let func := functions.entryAt n define
  have middle := @encloses_resultOf functions n define code args
    { thread with luaThread := func.hasBefore || thread.luaThread } found typed around unowned
    fun trace word next ran => (leaves trace word next ran).1
  have front : windowFront thread func (hookValues n args)
        ++ [.original .script (functions.orig define.n) (args.map CValue.passed)]
      = nilEvents func.hasBefore thread.luaThread
        ++ (stateEvents (func.hasBefore || thread.luaThread) ++ .lock .luaStateHolder
          :: (aroundFront func (hookValues n args)
            ++ [.original .script (functions.orig define.n) (args.map CValue.passed)])) := by
    simp only [windowFront, List.append_assoc, List.cons_append]
  rw [front]
  refine encloses_hookedCall (onlyIf_observerCall_nil func.hasBefore _ _ rfl unowned) middle ?_
  intro trace word next ran
  obtain ⟨_, registered⟩ := leaves trace word next ran
  have afterRun : onlyIf func.hasAfter (afterCall env define.n (define.rv.passedBack word) args)
      { next with ownsMutex := false } = _ :=
    onlyIf_observerCall_nil func.hasAfter _ _ rfl rfl
  rw [registered, Bool.or_true] at afterRun
  rw [registered]
  exact afterRun

/-- A call with the pass-through hook runs its original once, and no other. -/
theorem encloses_hooked (found : functions.defs[n]? = some define)
    (typed : args.map CValue.type = define.args)
    (around : (functions.entryAt n define).hasAround) (unset : thread.invocation ≠ some true)
    (unowned : thread.ownsMutex = false)
    (sets : ∀ addr words, ∃ errno, Sets none errno (code addr words))
    : ∃ (front back : List Event) (finish : Thread → Thread),
        Encloses
          (wrapper (passThroughEnv functions.entries code) (functions.entryAt n define)
            define.n define.rv args)
          thread
          (front ++ [.original .script (functions.orig define.n) (args.map CValue.passed)])
          (code (functions.orig define.n) (args.map CValue.passed)) thread.released back
          (fun word next => (define.rv.passedBack word, finish next))
        ∧ (front ++ back).filter Event.isOriginal = [] := by
  let func := functions.entryAt n define
  let early := windowFront { thread with invocation := some true } func (hookValues n args)
  let late : List Event :=
    aroundBack ++ [.unlock] ++ nilEvents func.hasAfter true ++ [.disarm]
  have hooked := @encloses_passThrough functions n define code args
    { thread with invocation := some true } found typed around unowned
    fun trace word next ran => by
      obtain ⟨errno, sets⟩ := sets (functions.orig define.n) (args.map CValue.passed)
      rw [sets.next rfl ran]
      exact ⟨rfl, rfl⟩
  let finish (next : Thread) : Thread :=
    { next with invocation := some false, luaThread := true, ownsMutex := false }
  refine ⟨.enter func :: .arm :: early, late, finish, encloses_wrapper unset hooked, ?_⟩
  have back : late.filter Event.isOriginal = [] := by
    simp only [late, List.filter_append, nilEvents_filter]
    rfl
  rw [List.filter_append, back, List.append_nil]
  exact windowFront_filter _ _ _

/-- Without the hook, the call runs its original and gives what that returned. -/
theorem encloses_plain (typed : args.map CValue.type = define.args)
    (unset : thread.invocation ≠ some true) (unowned : thread.ownsMutex = false)
    (sets : ∀ addr words, ∃ errno, Sets none errno (code addr words))
    : ∃ (front back : List Event) (entry : Thread) (finish : Thread → Thread),
        Encloses
          (wrapper (passThroughEnv functions.entries code)
            { functions.entryAt n define with hasAround := false } define.n define.rv args)
          thread front
          (code (functions.orig define.n) (args.map CValue.word)) entry back
          (fun word next => (define.rv.ofWord word, finish next))
        ∧ entry.invocation = some true := by
  let env := passThroughEnv functions.entries code
  let func := { functions.entryAt n define with hasAround := false }
  let entry := { thread with
    invocation := some true
    luaThread := func.hasBefore || thread.luaThread }
  have arity : func.numArgs = args.length := by
    rw [← List.length_map CValue.type, typed]
    rfl
  have direct : Encloses (resultOf env func define.rv args) entry
      [.original .direct (functions.orig define.n) (args.map CValue.word)]
      (code (functions.orig define.n) (args.map CValue.word)) entry [.originalReturn .direct]
      (fun word next => (define.rv.ofWord word, next)) := by
    rw [resultOf, if_neg (by simp [func]), invoke_eq arity rfl]
    exact Encloses.after (emit_run _ _) (Encloses.self.before fun _ _ _ _ => rfl)
  have beforeRun : onlyIf func.hasBefore (beforeCall env define.n args)
      { thread with invocation := some true }
      = ⟨nilEvents func.hasBefore thread.luaThread, .ok ((), entry)⟩ :=
    onlyIf_observerCall_nil func.hasBefore _ _ rfl unowned
  have afterRun : ∀ trace word next,
      code (functions.orig define.n) (args.map CValue.word) entry = ⟨trace, .ok (word, next)⟩
      → onlyIf func.hasAfter (afterCall env define.n (define.rv.ofWord word) args) next
        = ⟨nilEvents func.hasAfter entry.luaThread,
            .ok ((), { next with luaThread := func.hasAfter || next.luaThread })⟩ := by
    intro trace word next ran
    obtain ⟨errno, sets⟩ := sets (functions.orig define.n) (args.map CValue.word)
    rw [sets.next rfl ran]
    exact onlyIf_observerCall_nil func.hasAfter _ _ rfl unowned
  let finish (next : Thread) : Thread :=
    { next with
      invocation := some false
      luaThread := func.hasAfter || next.luaThread }
  exact ⟨_, _, entry, finish,
    encloses_wrapper unset (encloses_hookedCall beforeRun direct afterRun), rfl⟩

end

-----------------------------------------------------------------------------------------
-- Invisible calls
-----------------------------------------------------------------------------------------

/-- The pass-through hook is invisible in a call of the entry at a position: the original of
that entry is run once, with the arguments of the application, and the call ends with the
result it has without the hook.
-/
structure Invisible (functions : Functions) (n : Nat) (define : Define)
    (code : Addr → List Word → Run Word) (args : List CValue) (thread : Thread)
    : Prop where
  once : ∃ front back,
    (wrapper (passThroughEnv functions.entries code) (functions.entryAt n define) define.n
        define.rv args thread).trace
      = front
        ++ .original .script (functions.orig define.n) (args.map CValue.word)
          :: (code (functions.orig define.n) (args.map CValue.word) thread.released).trace
        ++ back
    ∧ (front ++ back).filter Event.isOriginal = []
  result
    : (wrapper (passThroughEnv functions.entries code) (functions.entryAt n define) define.n
        define.rv args thread).result.map Prod.fst
      = (wrapper (passThroughEnv functions.entries code)
          { functions.entryAt n define with hasAround := false } define.n define.rv args
          thread).result.map Prod.fst

/-- Two readings of a trace up to its first original agree on that original. -/
theorem firstOriginal_eq {front front' rest rest' : List Event} {event event' : Event}
    (same : front ++ event :: rest = front' ++ event' :: rest')
    (quiet : front.filter Event.isOriginal = [])
    (quiet' : front'.filter Event.isOriginal = []) (original : event.isOriginal)
    (original' : event'.isOriginal)
    : event = event' := by
  have filtered := congrArg (List.filter Event.isOriginal) same
  rw [List.filter_append, List.filter_append, quiet, quiet', List.nil_append, List.nil_append,
    List.filter_cons_of_pos original, List.filter_cons_of_pos original'] at filtered
  exact (List.cons.inj filtered).1

section

variable {functions : Functions} {n : Nat} {define : Define}
  {code : Addr → List Word → Run Word} {args : List CValue} {thread : Thread}

/-- Where the hook is invisible the arguments are exact. -/
theorem Invisible.exact_args (invisible : Invisible functions n define code args thread)
    (found : functions.defs[n]? = some define) (typed : args.map CValue.type = define.args)
    (around : (functions.entryAt n define).hasAround) (unset : thread.invocation ≠ some true)
    (unowned : thread.ownsMutex = false)
    (sets : ∀ addr words, ∃ errno, Sets none errno (code addr words))
    : ∀ arg ∈ args, arg.Exact := by
  obtain ⟨front, back, trace, quiet⟩ := invisible.once
  obtain ⟨front', back', _, encloses, quiet'⟩ :=
    encloses_hooked found typed around unset unowned sets
  rw [List.filter_append, List.append_eq_nil_iff] at quiet quiet'
  have same : Event.original .script (functions.orig define.n) (args.map CValue.passed)
      = .original .script (functions.orig define.n) (args.map CValue.word) := by
    rcases encloses.trace with whole | whole
    · rw [trace] at whole
      simp only [List.append_assoc, List.cons_append, List.nil_append] at whole
      exact (firstOriginal_eq whole quiet.1 quiet'.1 rfl rfl).symm
    · rw [trace] at whole
      simp only [List.append_assoc, List.cons_append, List.nil_append] at whole
      exact (firstOriginal_eq whole quiet.1 quiet'.1 rfl rfl).symm
  have words : args.map CValue.passed = args.map CValue.word := by injection same
  intro arg member
  exact CValue.passed_eq_word.mp (List.map_inj_left.mp words arg member)

/-- On exact arguments the result with the hook went through Lua, and the one without it did
not.
-/
theorem results_of_exact (found : functions.defs[n]? = some define)
    (typed : args.map CValue.type = define.args)
    (around : (functions.entryAt n define).hasAround) (unset : thread.invocation ≠ some true)
    (unowned : thread.ownsMutex = false)
    (sets : ∀ addr words, ∃ errno, Sets none errno (code addr words)) (exact : ∀ arg ∈ args, arg.Exact)
    : (wrapper (passThroughEnv functions.entries code) (functions.entryAt n define) define.n
          define.rv args thread).result.map Prod.fst
        = ((code (functions.orig define.n) (args.map CValue.word)
            thread.released).result.map Prod.fst).map define.rv.passedBack
      ∧ (wrapper (passThroughEnv functions.entries code)
            { functions.entryAt n define with hasAround := false } define.n define.rv args
            thread).result.map Prod.fst
        = ((code (functions.orig define.n) (args.map CValue.word)
            thread.released).result.map Prod.fst).map define.rv.ofWord := by
  have words : args.map CValue.passed = args.map CValue.word :=
    List.map_inj_left.mpr fun arg member => CValue.passed_eq_word.mpr (exact arg member)
  obtain ⟨_, _, _, hooked, _⟩ := encloses_hooked found typed around unset unowned sets
  obtain ⟨_, _, entry, _, plain, flag⟩ :=
    @encloses_plain functions n define code args thread typed unset unowned sets
  rw [words] at hooked
  refine ⟨hooked.value, plain.value.trans ?_⟩
  obtain ⟨errno, sets⟩ := sets (functions.orig define.n) (args.map CValue.word)
  rw [sets.value flag (show thread.released.invocation = some true from rfl)]

end

/-- For every behaviour of the original, the pass-through hook is invisible exactly where the
arguments and the value the original returns on them, as far as they are 8 bytes wide, have
at most 53 significant bits as signed integers. Witness: the first original that runs tells
the arguments, and what `around_call` reads back tells the value.
-/
theorem passThrough_invisible_iff {functions : Functions} {n : Nat} {define : Define}
    (original : Addr → List Word → Original) {args : List CValue} {thread : Thread}
    (found : functions.defs[n]? = some define) (typed : args.map CValue.type = define.args)
    (around : (functions.entryAt n define).hasAround) (unset : thread.invocation ≠ some true)
    (unowned : thread.ownsMutex = false)
    : Invisible functions n define
        (fun addr words => (original addr words).run functions.entries) args thread
      ↔ (∀ arg ∈ args, arg.Exact)
        ∧ ∀ word,
            ((original (functions.orig define.n) (args.map CValue.word)).run functions.entries
                thread.released).result.map Prod.fst
              = .ok word
            → (define.rv.ofWord word).Exact := by
  have sets (addr : Addr) (words : List Word)
      : ∃ errno, Sets none errno ((original addr words).run functions.entries) :=
    ⟨_, (original addr words).sets functions.entries⟩
  constructor
  · intro invisible
    have exact := invisible.exact_args found typed around unset unowned sets
    refine ⟨exact, fun word returned => ?_⟩
    obtain ⟨hooked, plain⟩ :=
      results_of_exact found typed around unset unowned sets exact
    have same := hooked.symm.trans (invisible.result.trans plain)
    rw [returned] at same
    exact CType.passedBack_eq.mp (Except.ok.inj same)
  · intro holds
    rcases holds with ⟨exact, returned⟩
    have words : args.map CValue.passed = args.map CValue.word :=
      List.map_inj_left.mpr fun arg member => CValue.passed_eq_word.mpr (exact arg member)
    obtain ⟨front, back, _, encloses, quiet⟩ :=
      encloses_hooked found typed around unset unowned sets
    rw [words] at encloses
    obtain ⟨hooked, plain⟩ :=
      results_of_exact found typed around unset unowned sets exact
    constructor
    · rcases encloses.trace with whole | whole
      · exact ⟨front, back, by simpa using whole, quiet⟩
      · rw [List.filter_append, List.append_eq_nil_iff] at quiet
        exact ⟨front, [], by simpa using whole, by simpa using quiet.1⟩
    · rw [hooked, plain]
      match ended : ((original (functions.orig define.n) (args.map CValue.word)).run
          functions.entries thread.released).result.map Prod.fst with
      | .error reason => rfl
      | .ok word => exact congrArg Except.ok (CType.passedBack_eq.mpr (returned word ended))

/-- The table of `calls.defs` with an around hook on every function. -/
def aroundFunctions : Functions :=
  { callsFunctions with flags := fun _ => ⟨false, true, false⟩ }

/-- `lseek` as an original that goes where it is told. -/
def lseekOriginal (_ : Addr) : List Word → Original
  | [_, offset, _] => .mk [] none offset
  | _ => .mk [] none (.w64 (-1))

/-- A seek to an offset of 4096 is exact in both directions. -/
theorem lseek_passThrough_invisible
    : Invisible aroundFunctions 9 lseekDefine
        (fun addr words => (lseekOriginal addr words).run aroundFunctions.entries)
        [.int 3, .long 4096, .int 0] ⟨none, false, false, 0⟩ := by
  have unset : (⟨none, false, false, 0⟩ : Thread).invocation ≠ some true := by simp
  refine (passThrough_invisible_iff lseekOriginal rfl rfl rfl unset rfl).mpr ⟨?_, ?_⟩
  · intro arg member
    refine arg.exact_iff_fits.mpr (Rounding.fits_of_natAbs_lt ?_)
    rcases List.mem_cons.mp member with rfl | later
    · decide
    rcases List.mem_cons.mp later with rfl | last
    · decide
    · obtain rfl := List.mem_singleton.mp last
      decide
  · intro word returned
    obtain rfl : Word.w64 4096 = word := Except.ok.inj returned
    exact fun _ => Rounding.fits_of_natAbs_lt (by decide)

/-- A seek to the offset `2 ^ 53 + 1` goes elsewhere. -/
theorem lseek_passThrough_visible
    : ¬ ∀ (functions : Functions) (n : Nat) (define : Define)
          (original : Addr → List Word → Original) (args : List CValue) (thread : Thread),
        functions.defs[n]? = some define → args.map CValue.type = define.args
        → (functions.entryAt n define).hasAround → thread.invocation ≠ some true
        → thread.ownsMutex = false
        → Invisible functions n define
            (fun addr words => (original addr words).run functions.entries) args thread := by
  intro always
  have unset : (⟨none, false, false, 0⟩ : Thread).invocation ≠ some true := by simp
  have invisible := always aroundFunctions 9 lseekDefine lseekOriginal
    [.int 3, .long (2 ^ 53 + 1), .int 0] _ rfl rfl rfl unset rfl
  have exact := invisible.exact_args rfl rfl rfl unset rfl
    (fun addr words => ⟨_, (lseekOriginal addr words).sets _⟩) (.long (2 ^ 53 + 1)) (by simp)
  have same := Rounding.round_eq_self_iff.mpr (exact rfl)
  exact absurd same (by decide)

end Labrea
