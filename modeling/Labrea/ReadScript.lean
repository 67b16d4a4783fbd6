import Mathlib.Algebra.Ring.Rat
import Labrea.Library.Partial
import Labrea.PassThrough

/-! The documented script that bounds every `read`: the count its around hook compares and
passes on, and which counts it really bounds.
-/

namespace Labrea

open Traced.Program (Begins begins_emit emit emit_run)

/-- `size > bound` for numbers; `add_arg` pushes finite ones only. -/
def LuaNumber.exceeds (bound : Nat) : LuaNumber → Bool
  | .finite value => decide ((bound : ℚ) < value)
  | .nonfinite => false

/-- `if size > bound then size = bound end` -/
def LuaNumber.cutTo (bound : Nat) (size : LuaNumber) : LuaNumber :=
  if size.exceeds bound then .finite bound else size

/-- The `around_read` of the documentation, with this bound; comparing anything but a number
raises an error.
-/
def aroundRead (functions : List FType) (code : Addr → List Word → Run Word) (bound : Nat)
    : LuaFunction
  | f :: d :: buf :: .number size :: _ => do
      emit (.lua .own)
      let value ← doInvoke functions code .own [f, d, buf, .number (size.cutTo bound)]
      pure (.ok value)
  | _ => do
      emit (.lua .own)
      pure (.error (.string none))

/-- An environment whose script is this around hook. -/
def readEnv (functions : List FType) (code : Addr → List Word → Run Word) (bound : Nat)
    : Env where
  global
    | .around, _ => some (aroundRead functions code bound)
    | _, _ => none
  code := code
  dlsym := fun _ => none
  report := fun _ => pure ()
  reread := id

section

variable {bound : Nat} {count : BitVec 64}

/-- The count whose number the hook passes on. -/
def cutCount (bound : Nat) (count : BitVec 64) : BitVec 64 :=
  if (pushInteger count).exceeds bound then BitVec.ofNat 64 bound else count

theorem cutTo_pushInteger (small : bound < 2 ^ 31)
    : (pushInteger count).cutTo bound = pushInteger (cutCount bound count) := by
  rw [LuaNumber.cutTo, cutCount]
  split
  · rw [pushInteger_ofNat (by omega), Int.cast_natCast]
  · rfl

/-- The comparison sees the signed reading of the count. -/
theorem exceeds_iff (small : bound < 2 ^ 31)
    : (pushInteger count).exceeds bound ↔ (bound : Int) < count.toInt := by
  have compared : (pushInteger count).exceeds bound
      ↔ (bound : Int) < Rounding.round 53 count.toInt := by
    rw [pushInteger, LuaNumber.exceeds, decide_eq_true_eq]
    exact_mod_cast Iff.rfl
  rw [compared]
  constructor
  · intro exceeds
    by_contra below
    by_cases natural : 0 ≤ count.toInt
    · have fits : Rounding.Fits 53 count.toInt := Rounding.fits_of_natAbs_lt (by omega)
      rw [Rounding.round_eq_self_iff.mpr fits] at exceeds
      exact below exceeds
    · have negative := Rounding.round_neg (p := 53) (by decide) (not_le.mp natural)
      omega
  · intro exceeds
    exact Rounding.lt_round (by decide) (by omega) exceeds (by omega)

/-- A count that is negative when read as signed stays so. -/
theorem toInteger_pushInteger_neg (negative : count.toInt < 0)
    : (pushInteger count).toInteger.toInt < 0 := by
  have lower := (round_toInt_range count).1
  have below := Rounding.round_neg (p := 53) (by decide) negative
  have inside : -2 ^ 63 ≤ Rounding.round 53 count.toInt ∧ Rounding.round 53 count.toInt < 2 ^ 63 :=
    ⟨lower, by omega⟩
  rwa [pushInteger, LuaNumber.toInteger_intCast, if_pos inside,
    BitVec.toInt_ofInt_eq_self (by decide) inside.1 inside.2]

/-- The original receives the smaller of the count and the bound exactly where the count is
no negative number when read as signed.
-/
theorem passed_cutCount (small : bound < 2 ^ 31)
    : (CValue.unsignedLong (cutCount bound count)).passed
        = .w64 (BitVec.ofNat 64 (min count.toNat bound))
      ↔ count.toNat < 2 ^ 63 := by
  have passed (n : BitVec 64)
      : (CValue.unsignedLong n).passed = .w64 (pushInteger n).toInteger := rfl
  have exact (n : BitVec 64) (fits : Rounding.Fits 53 n.toInt)
      : (CValue.unsignedLong n).passed = .w64 n := by
    rw [passed, toInteger_pushInteger.mpr fits]
  by_cases signed : count.toNat < 2 ^ 63
  · have natural : count.toInt = count.toNat := BitVec.toInt_eq_toNat_of_lt (by omega)
    refine iff_of_true ?_ signed
    rw [cutCount]
    split
    case isTrue exceeds =>
      have above := (exceeds_iff small).mp exceeds
      rw [Nat.min_eq_right (by omega)]
      exact exact _ (fits_ofNat (by omega))
    case isFalse within =>
      have below : ¬ (bound : Int) < count.toInt := fun above => within ((exceeds_iff small).mpr above)
      rw [Nat.min_eq_left (by omega), exact count (Rounding.fits_of_natAbs_lt (by omega)),
        BitVec.ofNat_toNat, BitVec.setWidth_eq]
  · have negative : count.toInt < 0 := by
      rw [BitVec.toInt_eq_toNat_cond]
      have := count.isLt
      split <;> omega
    have whole : cutCount bound count = count := by
      rw [cutCount, if_neg]
      intro exceeds
      have above := (exceeds_iff small).mp exceeds
      omega
    refine iff_of_false ?_ signed
    rw [whole, passed, Word.w64.injEq]
    intro same
    have sign := toInteger_pushInteger_neg negative
    rw [same, toInt_ofNat (by omega)] at sign
    omega

end

-----------------------------------------------------------------------------------------
-- A call of read under the script
-----------------------------------------------------------------------------------------

/-- The call an application makes. -/
def readArgs (pointee : String) (d : BitVec 32) (buf count : BitVec 64) : List CValue :=
  [.int d, .pointer pointee buf, .unsignedLong count]

section

variable {functions : Functions} {n : Nat} {define : Define} {pointee : String}
  {code : Addr → List Word → Run Word} {bound : Nat} {d : BitVec 32}
  {buf count : BitVec 64} {thread : Thread}

/-- The hook invokes the original on what it received, but for the count. -/
theorem aroundRead_hookValues (small : bound < 2 ^ 31)
    : aroundRead functions.entries code bound (hookValues n (readArgs pointee d buf count))
      = (do
          emit (.lua .own)
          let value ← doInvoke functions.entries code .own
            (hookValues n (readArgs pointee d buf (cutCount bound count)))
          pure (.ok value)) := by
  have cut := @cutTo_pushInteger bound count small
  simp only [hookValues, readArgs, List.map_cons, List.map_nil, aroundRead, addArg, cut]

/-- What the original of the entry receives first when `labrea.invoke` is called. -/
theorem begins_doInvoke {args : List CValue} (found : functions.defs[n]? = some define)
    (typed : args.map CValue.type = define.args)
    : Begins (doInvoke functions.entries code .own (hookValues n args)) thread
        [.ccall .own, .unlock,
          .original .script (functions.orig define.n) (args.map CValue.passed)] := by
  have unlocked : unlockMutex thread
      = ⟨[.unlock], .ok ((), { thread with ownsMutex := false })⟩ := rfl
  rw [hookValues, doInvoke_entryAt found typed, abstractInvoke_entryAt typed]
  exact Begins.after (emit_run _ _)
    ((Begins.after unlocked ((begins_emit.bind _).bind _)).bind _)

/-- `around_call` under the script, up to the original. -/
theorem begins_aroundBody (found : functions.defs[n]? = some define)
    (signature : define.args = [.int, .pointer pointee, sizeT]) (small : bound < 2 ^ 31)
    : Begins
        (aroundBody (readEnv functions.entries code bound) (functions.entryAt n define)
          define.rv (readArgs pointee d buf count))
        thread
        (aroundFront (functions.entryAt n define)
            (hookValues n (readArgs pointee d buf count))
          ++ [.original .script (functions.orig define.n)
            ((readArgs pointee d buf (cutCount bound count)).map CValue.passed)]) := by
  let values := hookValues n (readArgs pointee d buf count)
  let fname := snprintf 31 "around_".toList (functions.entryAt n define).name
  let original := Event.original .script (functions.orig define.n)
    ((readArgs pointee d buf (cutCount bound count)).map CValue.passed)
  have typed : (readArgs pointee d buf (cutCount bound count)).map CValue.type
      = define.args := signature.symm
  have hooked : Begins
      (runHook .around fname (aroundRead functions.entries code bound) values)
      thread
      [.hook .around fname values, .lua .own, .ccall .own, .unlock, original] := by
    rw [runHook, aroundRead_hookValues small]
    exact Begins.after (emit_run _ _)
      (Begins.after (emit_run _ _) ((begins_doInvoke found typed).bind _))
  have front : aroundFront (functions.entryAt n define) values ++ [original]
      = .settop .own :: .push .own
        :: (values.map (fun _ => .push .own)
          ++ [.pcall .own values.length, .hook .around fname values, .lua .own, .ccall .own,
            .unlock, original]) := by
    simp only [aroundFront, List.append_assoc, List.cons_append, List.nil_append, fname]
  rw [front]
  exact Begins.after (emit_run _ _)
    (Begins.after (emit_run _ _)
      (Begins.after (pushCall_run _ _)
        ((Begins.after (emit_run _ _) (hooked.bind _)).bind _)))

/-- A call of `read` under the script, up to the original. -/
theorem begins_wrapper (found : functions.defs[n]? = some define)
    (signature : define.args = [.int, .pointer pointee, sizeT])
    (around : (functions.entryAt n define).hasAround) (unset : thread.invocation ≠ some true)
    (unowned : thread.ownsMutex = false) (small : bound < 2 ^ 31)
    : Begins
        (wrapper (readEnv functions.entries code bound) (functions.entryAt n define) define.n
          define.rv (readArgs pointee d buf count))
        thread
        (.enter (functions.entryAt n define) :: .arm
            :: (windowFront thread (functions.entryAt n define)
              (hookValues n (readArgs pointee d buf count)))
          ++ [.original .script (functions.orig define.n)
            ((readArgs pointee d buf (cutCount bound count)).map CValue.passed)]) := by
  let func := functions.entryAt n define
  let armed : Thread := { thread with invocation := some true }
  have beforeRun : onlyIf func.hasBefore
      (beforeCall (readEnv functions.entries code bound) define.n
        (readArgs pointee d buf count)) armed = _ :=
    onlyIf_observerCall_nil func.hasBefore _ _ rfl unowned
  have body := @begins_aroundBody functions n define pointee code bound d buf count
    { armed with luaThread := true, ownsMutex := true } found signature small
  have result : Begins
      (resultOf (readEnv functions.entries code bound) func define.rv
        (readArgs pointee d buf count))
      { armed with luaThread := func.hasBefore || thread.luaThread }
      (stateEvents (func.hasBefore || thread.luaThread) ++ .lock .luaStateHolder
        :: (aroundFront func (hookValues n (readArgs pointee d buf count))
          ++ [.original .script (functions.orig define.n)
            ((readArgs pointee d buf (cutCount bound count)).map CValue.passed)])) := by
    rw [resultOf, if_pos around]
    exact Begins.after (getLuaState_run unowned)
      (Begins.after (lockMutex_run rfl) (body.bind _))
  have hooked : Begins
      (hookedCall (readEnv functions.entries code bound) func define.n define.rv
        (readArgs pointee d buf count)) armed _ :=
    Begins.after beforeRun (result.bind _)
  rw [windowFront, List.cons_append, List.cons_append, List.append_assoc, List.append_assoc,
    List.cons_append]
  exact Begins.after (emit_run _ _)
    (Begins.after (luaInvocation_ready unset) (hooked.bind _))

/-- The first original of the call is that of the entry, with the cut count. -/
theorem find_wrapper (found : functions.defs[n]? = some define)
    (signature : define.args = [.int, .pointer pointee, sizeT])
    (around : (functions.entryAt n define).hasAround) (unset : thread.invocation ≠ some true)
    (unowned : thread.ownsMutex = false) (small : bound < 2 ^ 31)
    : (wrapper (readEnv functions.entries code bound) (functions.entryAt n define) define.n
          define.rv (readArgs pointee d buf count) thread).trace.find? Event.isOriginal
      = some (.original .script (functions.orig define.n)
          ((readArgs pointee d buf (cutCount bound count)).map CValue.passed)) := by
  obtain ⟨rest, split⟩ :=
    @begins_wrapper functions n define pointee code bound d buf count thread found signature
      around unset unowned small
  rw [← split, ← List.head?_filter, List.filter_append, List.filter_append,
    List.filter_cons_of_neg (by simp [Event.isOriginal]),
    List.filter_cons_of_neg (by simp [Event.isOriginal]), windowFront_filter]
  rfl

/-- The first original the call runs is that of the entry, and the count it receives is the
smaller of the application's and the bound.
-/
def Bounded (functions : Functions) (n : Nat) (define : Define)
    (code : Addr → List Word → Run Word) (bound : Nat) (args : List CValue) (count : BitVec 64)
    (thread : Thread)
    : Prop :=
  ∃ words,
    (wrapper (readEnv functions.entries code bound) (functions.entryAt n define) define.n
        define.rv args thread).trace.find? Event.isOriginal
      = some (.original .script (functions.orig define.n) words)
    ∧ words[2]? = some (.w64 (BitVec.ofNat 64 (min count.toNat bound)))

/-- For every bound below `2 ^ 31`, every original and every count, the count that `read`
receives first is the smaller of the two exactly where the count is below `2 ^ 63`. Witness:
the front of the call up to its original, and the way of the count through Lua.
-/
theorem aroundRead_bounds_iff (found : functions.defs[n]? = some define)
    (signature : define.args = [.int, .pointer pointee, sizeT])
    (around : (functions.entryAt n define).hasAround) (unset : thread.invocation ≠ some true)
    (unowned : thread.ownsMutex = false) (small : bound < 2 ^ 31)
    : Bounded functions n define code bound (readArgs pointee d buf count) count thread
      ↔ count.toNat < 2 ^ 63 := by
  rw [Bounded, find_wrapper found signature around unset unowned small,
    ← passed_cutCount small]
  constructor
  · intro holds
    rcases holds with ⟨words, same, received⟩
    obtain ⟨_, _, rfl⟩ := Event.original.inj (Option.some.inj same)
    exact Option.some.inj received
  · intro received
    exact ⟨_, rfl, congrArg some received⟩

end

/-- A read of 4096 bytes is cut to 64. -/
theorem read_page_bounded
    : Bounded aroundFunctions 7 readDefine (fun _ _ => pure (.w64 0)) 64
        (readArgs "void" 3 8192 4096) 4096 ⟨none, false, false, 0⟩ := by
  have unset : (⟨none, false, false, 0⟩ : Thread).invocation ≠ some true := by simp
  exact (aroundRead_bounds_iff rfl rfl rfl unset rfl (by decide)).mpr (by decide)

/-- A read of `SIZE_MAX` bytes is not. -/
theorem read_max_unbounded
    : ¬ ∀ (functions : Functions) (n : Nat) (define : Define) (pointee : String)
          (code : Addr → List Word → Run Word) (bound : Nat) (d : BitVec 32)
          (buf count : BitVec 64) (thread : Thread),
        functions.defs[n]? = some define → define.args = [.int, .pointer pointee, sizeT]
        → (functions.entryAt n define).hasAround → thread.invocation ≠ some true
        → thread.ownsMutex = false → bound < 2 ^ 31
        → Bounded functions n define code bound (readArgs pointee d buf count) count
            thread := by
  intro always
  have unset : (⟨none, false, false, 0⟩ : Thread).invocation ≠ some true := by simp
  obtain ⟨words, same, received⟩ := always aroundFunctions 7 readDefine "void"
    (fun _ _ => pure (.w64 0)) 64 3 8192 (-1) _ rfl rfl rfl unset rfl (by decide)
  rw [find_wrapper rfl rfl rfl unset rfl (by decide)] at same
  obtain ⟨_, _, rfl⟩ := Event.original.inj (Option.some.inj same)
  have passed := (passed_cutCount (by decide)).mp (Option.some.inj received)
  exact absurd passed (by decide)

end Labrea
