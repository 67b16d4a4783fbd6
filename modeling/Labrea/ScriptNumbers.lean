import Labrea.HookOrder
import Labrea.Library.Partial
import Labrea.PassThrough

/-! The numbers a script sees: the result of an original as `labrea.invoke` gives it and as
the after hook gets it.
-/

namespace Labrea

open Traced.Program (Yields yields_pure yields_halt yields_bind yields_after)

/-- An `int` below zero. -/
def CValue.isNegativeInt : CValue → Bool
  | .int bits => bits.msb
  | _ => false

/-- Integers of at most 53 significant bits are told apart by their Lua numbers. -/
theorem pushInteger_inj {m n : BitVec 64} (fits : Rounding.Fits 53 m.toInt)
    (fits' : Rounding.Fits 53 n.toInt)
    : pushInteger m = pushInteger n ↔ m = n := by
  constructor
  · intro same
    rw [← toInteger_pushInteger.mpr fits, same, toInteger_pushInteger.mpr fits']
  · rintro rfl
    rfl

/-- The two widenings of a 4-byte value agree where its sign bit is clear. -/
theorem setWidth_eq_signExtend {bits : BitVec 32}
    : bits.setWidth 64 = bits.signExtend 64 ↔ bits.msb = false := by
  constructor
  · intro same
    have unsigned := congrArg BitVec.toNat same
    rw [BitVec.toNat_signExtend] at unsigned
    by_contra signed
    rw [Bool.not_eq_false] at signed
    rw [signed, BitVec.toNat_setWidth_of_le (by decide)] at unsigned
    simp at unsigned
  · intro clear
    exact (BitVec.signExtend_eq_setWidth_of_msb_false clear).symm

/-- The unsigned prototype of an invoker and the `add_arg` overload of the result type make
one number of a result, but for a negative `int`.
-/
theorem pushInteger_uintType {rv : CType} {word : Word}
    : pushInteger ((uintType rv.width).toInteger word) = addArg (rv.ofWord word)
      ↔ (rv.ofWord word).isNegativeInt = false := by
  cases rv
  case int =>
    have widened (bits : BitVec 32)
        : pushInteger (bits.setWidth 64) = pushInteger (bits.signExtend 64)
          ↔ bits.msb = false :=
      (pushInteger_inj (fits_setWidth bits) (fits_signExtend bits)).trans
        setWidth_eq_signExtend
    cases word with
    | w32 bits =>
        have kept : (bits.setWidth 64).setWidth 32 = bits := by simp
        rw [CType.ofWord, CType.ofBits, kept]
        exact widened bits
    | w64 bits => exact widened (bits.setWidth 32)
  case unsignedInt =>
    cases word with
    | w32 bits =>
        have kept : (bits.setWidth 64).setWidth 32 = bits := by simp
        rw [CType.ofWord, CType.ofBits, kept]
        exact iff_of_true rfl rfl
    | w64 bits => exact iff_of_true rfl rfl
  all_goals
    cases word <;> exact iff_of_true rfl rfl

/-- The word an original returns. -/
def Original.ret : Original → Word
  | .mk _ _ ret => ret

variable (functions : List FType)

theorem yields_original (original : Original)
    : Yields (original.run functions) (· = original.ret) := by
  cases original
  rw [Original.run]
  exact yields_after fun _ => yields_after fun _ => yields_pure rfl

/-- `wrapper` without an around hook gives the application what its original returns. -/
theorem yields_wrapper {env : Env} {func : FType} {name : CString} {rv : CType}
    {args : List CValue} {ret : Word} (plain : func.hasAround = false)
    (code : ∀ addr words, Yields (env.code addr words) (· = ret))
    : Yields (wrapper env func name rv args) (· = rv.ofWord ret) := by
  have invoked (caller : Caller)
      : Yields (invoke env caller func rv args) (· = rv.ofWord ret) := by
    rw [invoke]
    split
    case isFalse => exact yields_halt
    case isTrue =>
      split
      · exact yields_halt
      · refine yields_after fun _ => yields_bind (code _ _) ?_
        rintro _ rfl
        exact yields_after fun _ => yields_pure rfl
  have direct : Yields (resultOf env func rv args) (· = rv.ofWord ret) := by
    rw [resultOf, if_neg (by simp [plain])]
    exact invoked .direct
  have hooked : Yields (hookedCall env func name rv args) (· = rv.ofWord ret) := by
    refine yields_after fun _ => yields_bind direct ?_
    rintro _ rfl
    exact yields_after fun _ => yields_pure rfl
  refine yields_after fun _ => yields_after fun ready => ?_
  split
  · refine yields_bind hooked ?_
    rintro _ rfl
    exact yields_after fun _ => yields_pure rfl
  · exact invoked .reentrant

theorem yields_antiLockHolder {α : Type} {body : Run α} {good : α → Prop}
    (yields : Yields body good)
    : Yields (antiLockHolder body) good :=
  yields_after fun _ => yields_bind yields fun _ holds =>
    yields_after fun _ => yields_pure holds

/-- `labrea.invoke` on the position of an entry gives what the entry's invoker makes of the
result.
-/
theorem yields_doInvoke {functions : Functions} {n : Nat} {define : Define}
    (found : functions.defs[n]? = some define) {code : Addr → List Word → Run Word}
    {state : LState} {stack : List LuaValue} {ret : Word}
    (position : ((stackInteger stack 0).setWidth 32).toInt = n)
    (codeYields : ∀ addr words, Yields (code addr words) (· = ret))
    : Yields (doInvoke functions.entries code state stack)
        (· = .number (pushInteger ((uintType define.rv.width).toInteger ret))) := by
  have called (args : List (BitVec 64))
      : Yields (abstractInvoke code (functions.entryAt n define) args)
          (· = (uintType define.rv.width).toInteger ret) := by
    rw [abstractInvoke_at]
    split
    · refine yields_after fun _ => yields_bind (codeYields _ _) ?_
      rintro _ rfl
      exact yields_after fun _ => yields_pure rfl
    · exact yields_halt
  rw [doInvoke_at found position]
  refine yields_after fun _ => ?_
  dsimp only
  split
  · exact yields_halt
  · refine yields_bind (yields_antiLockHolder (called _)) ?_
    rintro _ rfl
    exact yields_after fun _ => yields_after fun _ => yields_after fun _ => yields_pure rfl

/-- What after hooks are given as the result, in a trace. -/
def afterResults (trace : List Event) : List LuaValue :=
  trace.filterMap fun
    | .hook .after _ (value :: _) => some value
    | _ => none

/-- Only the main events of a trace count. -/
theorem afterResults_filter (trace : List Event)
    : afterResults (trace.filter Event.isMain) = afterResults trace := by
  rw [afterResults, afterResults, List.filterMap_filter]
  congr 1
  funext event
  cases event
  case original caller addr args => cases caller <;> rfl
  all_goals rfl

/-- A call on the entry at a position that runs its original itself and then an after hook. -/
def afterCallOf (functions : Functions) (n : Nat) (define : Define) (hasBefore : Bool)
    (args : List CValue) (before : Global) (after : Body) (original : Original)
    (reread : LuaNumber → LuaNumber)
    : Call :=
  .mk
    { functions.entryAt n define with
      hasBefore := hasBefore
      hasAround := false
      hasAfter := true }
    define.n define.rv args before (.nil []) (.value after) original reread

/-- The after hook of a top-level call is given the number `add_arg` makes of the result. -/
theorem afterResults_call {functions : Functions} {n : Nat} {define : Define}
    {hasBefore : Bool} {args : List CValue} {before : Global} {after : Body}
    {original : Original} {reread : LuaNumber → LuaNumber} {thread next : Thread}
    {trace : List Event} {result : CValue} (unset : thread.invocation ≠ some true)
    (ran
      : (afterCallOf functions n define hasBefore args before after original reread).run
          functions.entries thread
        = ⟨trace, .ok (result, next)⟩)
    : afterResults trace = [.number (addArg (define.rv.ofWord original.ret))] := by
  let call := afterCallOf functions n define hasBefore args before after original reread
  have value : result = define.rv.ofWord original.ret := by
    have code (addr : Addr) (words : List Word)
        : Yields ((call.env functions.entries).code addr words) (· = original.ret) :=
      yields_original functions.entries original
    have yields
        : Yields
            (wrapper (call.env functions.entries) call.entry call.name call.rv call.args)
            (· = define.rv.ofWord original.ret) :=
      yields_wrapper rfl code
    rw [call.run_eq] at ran
    exact yields thread result next (congrArg Traced.Outcome.result ran)
  have main : trace.filter Event.isMain
      = call.mainEvents (functions.orig define.n) result := by
    rw [call.run_eq, wrapper_ready unset] at ran
    obtain ⟨rfl, returned⟩ := Traced.Outcome.mk.inj ran
    have opened : ({ thread with invocation := some true } : Thread).invocation = some true :=
      rfl
    obtain ⟨accepted, ended⟩ := call.wp_window functions.entries rfl opened
    rw [returned] at ended
    exact (Call.inOrder_of_window accepted ended.2).main
  rw [← afterResults_filter, main, value]
  cases hasBefore <;> cases before <;> rfl

/-- An around hook that calls `labrea.invoke` and the after hook of a plain call see one
number for one result exactly where the result is not a negative `int`. Witness: what either
path pushes, and that integers of at most 53 bits are told apart by their numbers.
-/
theorem resultNumbers_agree_iff {functions : Functions} {n : Nat} {define : Define}
    (found : functions.defs[n]? = some define) {state : LState} {stack : List LuaValue}
    (position : ((stackInteger stack 0).setWidth 32).toInt = n) {hasBefore : Bool}
    {args : List CValue} {before : Global} {after : Body} {invoked plain : Original}
    {reread : LuaNumber → LuaNumber} (same : plain.ret = invoked.ret)
    {scriptThread scriptNext thread next : Thread} {number : LuaValue} {trace : List Event}
    {result : CValue} (unset : thread.invocation ≠ some true)
    (gave
      : (doInvoke functions.entries (fun _ _ => invoked.run functions.entries) state stack
          scriptThread).result
        = .ok (number, scriptNext))
    (ran
      : (afterCallOf functions n define hasBefore args before after plain reread).run
          functions.entries thread
        = ⟨trace, .ok (result, next)⟩)
    : afterResults trace = [number]
      ↔ (define.rv.ofWord invoked.ret).isNegativeInt = false := by
  have script : number
      = .number (pushInteger ((uintType define.rv.width).toInteger invoked.ret)) :=
    yields_doInvoke found position (fun _ _ => yields_original functions.entries invoked)
      scriptThread number scriptNext gave
  rw [afterResults_call unset ran, script, same, List.singleton_inj, LuaValue.number.injEq,
    eq_comm]
  exact pushInteger_uintType

/-- A call of `close` with an after hook, whose original gives this result. -/
def closeCall (ret : BitVec 32) : Call :=
  afterCallOf callsFunctions 6 closeDefine false [.int 3] (.nil []) (.returns [] .nil)
    (.mk [] none (.w32 ret)) id

/-- What `labrea.invoke` gives a hook for a `close` with this result. -/
theorem doInvoke_close (ret : BitVec 32)
    : ∃ number next,
        (doInvoke callsFunctions.entries
            (fun _ _ => (Original.mk [] none (.w32 ret)).run callsFunctions.entries) .own
            (hookValues 6 [.int 3]) ⟨some true, true, true, 0⟩).result
          = .ok (number, next) := by
  let code : Addr → List Word → Run Word :=
    fun _ _ => (Original.mk [] none (.w32 ret)).run callsFunctions.entries
  have encloses := @encloses_doInvoke callsFunctions 6 closeDefine code [.int 3]
    ⟨some true, true, true, 0⟩ rfl rfl (by rintro _ _ _ ran; cases ran; rfl)
  exact ⟨_, _, congrArg Traced.Outcome.result (encloses.returned [] (.w32 ret) _ rfl)⟩

/-- The numbers agree on the 0 of a successful `close`. -/
theorem closeCall_numbers_agree
    : ∃ number next,
        (doInvoke callsFunctions.entries
            (fun _ _ => (Original.mk [] none (.w32 0)).run callsFunctions.entries) .own
            (hookValues 6 [.int 3]) ⟨some true, true, true, 0⟩).result
          = .ok (number, next)
        ∧ afterResults ((closeCall 0).run callsFunctions.entries ⟨none, false, false, 0⟩).trace
          = [number] := by
  obtain ⟨number, next, gave⟩ := doInvoke_close 0
  have unset : (⟨none, false, false, 0⟩ : Thread).invocation ≠ some true := by simp
  have position : ((stackInteger (hookValues 6 [.int 3]) 0).setWidth 32).toInt = (6 : Nat) := by
    decide
  exact ⟨number, next, gave, (resultNumbers_agree_iff rfl position rfl unset gave rfl).mpr rfl⟩

/-- The -1 of a failed `close` is two numbers. -/
theorem closeCall_numbers_differ
    : ¬ ∀ (functions : Functions) (n : Nat) (define : Define) (state : LState)
          (stack : List LuaValue) (hasBefore : Bool) (args : List CValue) (before : Global)
          (after : Body) (invoked plain : Original) (reread : LuaNumber → LuaNumber)
          (scriptThread scriptNext thread next : Thread) (number : LuaValue)
          (trace : List Event) (result : CValue),
        functions.defs[n]? = some define
        → ((stackInteger stack 0).setWidth 32).toInt = n → plain.ret = invoked.ret
        → thread.invocation ≠ some true
        → (doInvoke functions.entries (fun _ _ => invoked.run functions.entries) state stack
            scriptThread).result
          = .ok (number, scriptNext)
        → (afterCallOf functions n define hasBefore args before after plain reread).run
            functions.entries thread
          = ⟨trace, .ok (result, next)⟩
        → afterResults trace = [number] := by
  intro always
  obtain ⟨number, next, gave⟩ := doInvoke_close (-1)
  have unset : (⟨none, false, false, 0⟩ : Thread).invocation ≠ some true := by simp
  have position : ((stackInteger (hookValues 6 [.int 3]) 0).setWidth 32).toInt = (6 : Nat) := by
    decide
  have agree := always callsFunctions 6 closeDefine .own (hookValues 6 [.int 3]) false
    [.int 3] (.nil []) (.returns [] .nil) (.mk [] none (.w32 (-1))) (.mk [] none (.w32 (-1))) id
    _ next ⟨none, false, false, 0⟩ _ number _ _ rfl position rfl unset gave rfl
  have script : number
      = .number (pushInteger ((uintType closeDefine.rv.width).toInteger (.w32 (-1)))) :=
    @yields_doInvoke callsFunctions 6 closeDefine rfl _ .own (hookValues 6 [.int 3]) (.w32 (-1))
      position (fun _ _ => yields_original _ _) _ _ _ gave
  rw [afterResults_call unset rfl, script] at agree
  have numbers := LuaValue.number.inj (List.singleton_inj.mp agree)
  exact absurd (pushInteger_uintType.mp numbers.symm) (by decide)

end Labrea
