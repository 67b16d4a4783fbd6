import Mathlib.Algebra.Ring.Rat
import Labrea.Library.Partial
import Labrea.PassThrough

/-! `labrea.invoke` on whatever list of values a script passes: when it calls the original of
the entry it is given, and what it does otherwise.
-/

namespace Labrea

open Traced.Program (Begins begins_emit emit emit_run emit_bind_run bind_of_ok bind_of_error)

/-- The first value is the position `n`: it is a number, or reads as one, and that is `n`. -/
def namesPosition (stack : List LuaValue) (n : Nat) : Prop :=
  stack.head?.bind LuaValue.tonumber = some (.finite n)

/-- The words an original with these argument types is passed for Lua values. -/
def wordsOf (types : List CType) (values : List LuaValue) : List Word :=
  List.zipWith (fun type value => (fargtype (CType.width type)).read value.toInteger) types
    values

/-- `labrea.invoke` calls exactly one original, that of the entry at the position its first
value is, with one word for each argument of the entry, each made of a value the script
passed; and it adds no undefined access and no failed assertion of its own. Only an original
that leaves the mutex locked keeps it from returning.
-/
structure SafelyInvokes (functions : Functions) (code : Addr → List Word → Run Word)
    (state : LState) (stack : List LuaValue) (thread : Thread) (n : Nat) (define : Define)
    : Prop where
  position : namesPosition stack n
  found : functions.defs[n]? = some define
  supplied : (wordsOf define.args (stack.drop 1)).length = define.args.length
  once : ∃ back,
    (doInvoke functions.entries code state stack thread).trace
      = [.ccall state, .unlock,
          .original .script (functions.orig define.n) (wordsOf define.args (stack.drop 1))]
        ++ (code (functions.orig define.n) (wordsOf define.args (stack.drop 1))
            { thread with ownsMutex := false }).trace
        ++ back
    ∧ back.filter Event.isOriginal = []
  lawful : ∀ reason,
    (doInvoke functions.entries code state stack thread).result = .error reason
    → reason = .deadlock
      ∨ (code (functions.orig define.n) (wordsOf define.args (stack.drop 1))
          { thread with ownsMutex := false }).result = .error reason

section

variable {functions : Functions} {code : Addr → List Word → Run Word} {state : LState}
  {stack : List LuaValue} {thread : Thread} {n : Nat} {define : Define}

/-- A position in the table is the `int` that `do_invoke` reads. -/
theorem position_offset (position : namesPosition stack n) (small : n < 2 ^ 31)
    : ((stackInteger stack 0).setWidth 32).toInt = n := by
  cases stack with
  | nil => exact nomatch position
  | cons first rest =>
      have number : first.tonumber = some (.finite n) := position
      have read : stackInteger (first :: rest) 0 = BitVec.ofNat 64 n := by
        have inside : -2 ^ 63 ≤ (n : Int) ∧ (n : Int) < 2 ^ 63 := by omega
        have whole := LuaNumber.toInteger_intCast n
        rw [Int.cast_natCast, if_pos inside, BitVec.ofInt_natCast] at whole
        simp only [stackInteger, List.getElem?_cons_zero, Option.map_some, Option.getD_some,
          LuaValue.toInteger, number, whole]
      rw [read, BitVec.setWidth_ofNat_of_le (by decide), BitVec.toInt_eq_toNat_of_lt] <;>
        rw [BitVec.toNat_ofNat] <;> omega

theorem antiLockHolder_error {α : Type} {body : Run α} {trace : List Event} {reason : Halt}
    (run : body { thread with ownsMutex := false } = ⟨trace, .error reason⟩)
    : antiLockHolder body thread = ⟨.unlock :: trace, .error reason⟩ := by
  have unlocked : unlockMutex thread
      = ⟨[.unlock], .ok ((), { thread with ownsMutex := false })⟩ := rfl
  rw [antiLockHolder, bind_of_ok unlocked, bind_of_error run]
  rfl

/-- What ran without the mutex is followed by the lock, which waits if the mutex was left
locked.
-/
theorem antiLockHolder_ok {α : Type} {body : Run α} {trace : List Event} {value : α}
    {next : Thread}
    (run : body { thread with ownsMutex := false } = ⟨trace, .ok (value, next)⟩)
    : antiLockHolder body thread
      = ⟨.unlock :: (trace ++ [.lock .antiLockHolder]),
          if next.ownsMutex then
            .error .deadlock
          else
            .ok (value, { next with ownsMutex := true })⟩ := by
  have unlocked : unlockMutex thread
      = ⟨[.unlock], .ok ((), { thread with ownsMutex := false })⟩ := rfl
  rw [antiLockHolder, bind_of_ok unlocked, bind_of_ok run]
  obtain ⟨invocation, luaThread, ownsMutex, errno⟩ := next
  cases ownsMutex <;> rfl

/-- The call of an original in `abstractInvoke`. -/
def scriptCall (code : Addr → List Word → Run Word) (orig : Addr) (words : List Word)
    (ret : UIntType)
    : Run (BitVec 64) := do
  emit (.original .script orig words)
  let result ← code orig words
  emit (.originalReturn .script)
  pure (ret.toInteger result)

theorem scriptCall_error {orig : Addr} {words : List Word} {ret : UIntType}
    {trace : List Event} {reason : Halt}
    (run : code orig words thread = ⟨trace, .error reason⟩)
    : scriptCall code orig words ret thread
      = ⟨.original .script orig words :: trace, .error reason⟩ := by
  rw [scriptCall, emit_bind_run, bind_of_error run]

theorem scriptCall_ok {orig : Addr} {words : List Word} {ret : UIntType}
    {trace : List Event} {word : Word} {next : Thread}
    (run : code orig words thread = ⟨trace, .ok (word, next)⟩)
    : scriptCall code orig words ret thread
      = ⟨.original .script orig words :: (trace ++ [.originalReturn .script]),
          .ok (ret.toInteger word, next)⟩ := by
  rw [scriptCall, emit_bind_run, bind_of_ok run]
  rfl

/-- On enough values, and not too many, the original of the entry is called. -/
theorem doInvoke_supplied (found : functions.defs[n]? = some define)
    (position : namesPosition stack n) (enough : define.args.length + 1 ≤ stack.length)
    (few : stack.length ≤ maxArgs + 1)
    : doInvoke functions.entries code state stack
      = (do
          emit (.ccall state)
          let rv ← antiLockHolder (scriptCall code (functions.orig define.n)
            (wordsOf define.args (stack.drop 1)) (uintType define.rv.width))
          emit (.settop state)
          emit (.push state)
          emit (.creturn state)
          pure (.number (pushInteger rv))) := by
  obtain ⟨inside, _⟩ := List.getElem?_eq_some_iff.mp found
  have offset := position_offset position (inside.trans functions.positions)
  have short : ¬ maxArgs < ((stack.drop 1).map LuaValue.toInteger).length := by
    rw [List.length_map, List.length_drop]
    omega
  have read : callArgs (gen define.args.length define.rv.width
        (define.args.map CType.width)).callargs ((stack.drop 1).map LuaValue.toInteger)
      = some (wordsOf define.args (stack.drop 1)) := by
    rw [callArgs_gen, if_pos, wordsOf, List.zipWith_map]
    simp only [List.length_map, List.length_drop]
    omega
  rw [doInvoke_at found offset]
  simp only [if_neg short, abstractInvoke_at, read]
  rfl

/-- On too many values the arguments do not fit their array. -/
theorem doInvoke_overflow (found : functions.defs[n]? = some define)
    (position : namesPosition stack n) (many : maxArgs + 1 < stack.length)
    : doInvoke functions.entries code state stack thread
      = ⟨[.ccall state], .error .undefined⟩ := by
  obtain ⟨inside, _⟩ := List.getElem?_eq_some_iff.mp found
  have offset := position_offset position (inside.trans functions.positions)
  have long : maxArgs < ((stack.drop 1).map LuaValue.toInteger).length := by
    rw [List.length_map, List.length_drop]
    omega
  rw [doInvoke_at found offset]
  simp only [if_pos long]
  rfl

/-- What the original of the entry does, and what `labrea.invoke` does after it. -/
theorem doInvoke_outcome (found : functions.defs[n]? = some define)
    (position : namesPosition stack n) (enough : define.args.length + 1 ≤ stack.length)
    (few : stack.length ≤ maxArgs + 1) {trace : List Event}
    {ended : Except Halt (Word × Thread)}
    (run
      : code (functions.orig define.n) (wordsOf define.args (stack.drop 1))
          { thread with ownsMutex := false }
        = ⟨trace, ended⟩)
    : ∃ back last,
        doInvoke functions.entries code state stack thread
          = ⟨[.ccall state, .unlock,
                .original .script (functions.orig define.n)
                  (wordsOf define.args (stack.drop 1))] ++ trace ++ back,
              last⟩
        ∧ back.filter Event.isOriginal = []
        ∧ ∀ reason, last = .error reason → reason = .deadlock ∨ ended = .error reason := by
  rw [doInvoke_supplied found position enough few, emit_bind_run]
  match ended with
  | .error reason =>
      rw [bind_of_error (antiLockHolder_error (scriptCall_error run))]
      refine ⟨[], .error reason, by simp, rfl, ?_⟩
      intro _ holds
      rcases holds with ⟨⟩
      exact Or.inr rfl
  | .ok (word, next) =>
      have called : scriptCall code (functions.orig define.n)
          (wordsOf define.args (stack.drop 1)) (uintType define.rv.width)
          { thread with ownsMutex := false } = _ :=
        scriptCall_ok run
      have whole := antiLockHolder_ok called
      cases owned : next.ownsMutex with
      | true =>
          rw [owned, if_pos rfl] at whole
          rw [bind_of_error whole]
          refine ⟨[.originalReturn .script, .lock .antiLockHolder], .error .deadlock, by simp,
            rfl, ?_⟩
          intro reason holds
          rcases holds with ⟨⟩
          exact Or.inl rfl
      | false =>
          rw [owned, if_neg (by simp)] at whole
          rw [bind_of_ok whole]
          refine ⟨[.originalReturn .script, .lock .antiLockHolder, .settop state,
            .push state, .creturn state],
            .ok (.number (pushInteger ((uintType define.rv.width).toInteger word)),
              { next with ownsMutex := true }), ?_, rfl, ?_⟩
          · simp only [List.cons_append, List.nil_append, List.append_assoc]
            rfl
          · intro reason holds
            rcases holds with ⟨⟩

/-- `labrea.invoke` is safe exactly where its first value is the position of an entry and it
is followed by at least as many values as the entry has arguments and at most `MAX_ARGS`.
Witness: in the other cases it stops before the original, on the bound of its argument array
or on an argument that was not written.
-/
theorem doInvoke_safe_iff
    : (∃ n define, SafelyInvokes functions code state stack thread n define)
      ↔ ∃ n define,
          namesPosition stack n
          ∧ functions.defs[n]? = some define
          ∧ define.args.length + 1 ≤ stack.length
          ∧ stack.length ≤ maxArgs + 1 := by
  constructor
  · intro holds
    rcases holds with ⟨n, define, safe⟩
    refine ⟨n, define, safe.position, safe.found, ?_, ?_⟩
    · have supplied := safe.supplied
      have nonempty : stack ≠ [] := by
        rintro rfl
        exact nomatch safe.position
      have positive := List.length_pos_of_ne_nil nonempty
      rw [wordsOf, List.length_zipWith, List.length_drop] at supplied
      omega
    · by_contra many
      obtain ⟨back, trace, _⟩ := safe.once
      rw [doInvoke_overflow safe.found safe.position (not_le.mp many)] at trace
      exact nomatch trace
  · intro holds
    rcases holds with ⟨n, define, position, found, enough, few⟩
    obtain ⟨back, last, run, quiet, lawful⟩ :=
      @doInvoke_outcome functions code state stack thread n define found position enough few _ _ rfl
    refine ⟨n, define, position, found, ?_, ⟨back, ?_, quiet⟩, ?_⟩
    · rw [wordsOf, List.length_zipWith, List.length_drop]
      omega
    · rw [run]
    · rw [run]
      exact lawful

end

/-- A read without its arguments uses elements of `args` that were not written. -/
theorem doInvoke_read_unsupplied
    : ¬ ∀ (functions : Functions) (code : Addr → List Word → Run Word) (state : LState)
          (stack : List LuaValue) (thread : Thread),
        ∃ n define, SafelyInvokes functions code state stack thread n define := by
  intro always
  obtain ⟨n, define, safe⟩ := always callsFunctions (fun _ _ => pure (.w64 0)) .own
    [.number (.finite 7)] ⟨none, false, true, 0⟩
  have seven : (7 : ℚ) = n := LuaNumber.finite.inj (Option.some.inj safe.position)
  obtain rfl : 7 = n := by exact_mod_cast seven
  obtain rfl : readDefine = define := Option.some.inj safe.found
  exact absurd safe.supplied (by decide)

end Labrea
