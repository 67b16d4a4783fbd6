import Labrea.LockNeutral

/-! What `labrea.usleep` asks the system for. The request goes from a double through a 64-bit
integer to an `int`, whose sign decides whether the call sleeps at all.
-/

namespace Labrea

/-- The microseconds an event asks the system to sleep for; `usleep` takes them unsigned. -/
def Event.microseconds : Event → Nat
  | .usleep howlong => howlong.toNat
  | _ => 0

/-- The sleep that a run asks the system for, in microseconds. -/
def asked (trace : List Event) : Nat :=
  (trace.map Event.microseconds).sum

/-- A run that returns without having given up the mutex, and without a sleep. -/
def ReturnsAtOnce (outcome : Traced.Outcome Thread Event Halt Unit) : Prop :=
  outcome.result.isOk ∧ .unlock ∉ outcome.trace ∧ asked outcome.trace = 0

/-- The stack of `labrea.usleep` for a whole number, the last argument that was passed. -/
def delayStack (others : List LuaValue) (delay : ℤ) : List LuaValue :=
  others ++ [.number (.finite delay)]

/-- A whole number of microseconds that `labrea.usleep` honours: it is below `2 ^ 31`, and
where it is no delay at all, its low 32 bits are none either. A number outside of
`lua_Integer` is read as one whose low bits are zero.
-/
def Honoured (delay : ℤ) : Prop :=
  delay < 2 ^ 31
    ∧ (delay < 1 → delay < -2 ^ 63 ∨ delay % 2 ^ 32 = 0 ∨ 2 ^ 31 ≤ delay % 2 ^ 32)

instance (delay : ℤ) : Decidable (Honoured delay) :=
  inferInstanceAs (Decidable (_ ∧ _))

variable {state : LState} {others : List LuaValue} {thread : Thread}

/-- A whole number as the `int` of `do_usleep`: its low 32 bits, signed, if it is in the range
of `lua_Integer`.
-/
theorem howlong_delayStack (delay : ℤ)
    : (howlong (delayStack others delay)).toInt
      = if -2 ^ 63 ≤ delay ∧ delay < 2 ^ 63 then delay.bmod (2 ^ 32) else 0 := by
  simp only [howlong, delayStack, List.getLast?_append, List.getLast?_singleton,
    Option.some_or, Option.map_some, Option.getD_some, LuaValue.toInteger, LuaValue.tonumber,
    LuaNumber.toInteger_intCast]
  split
  case isTrue inside =>
    have whole : ((delay % (2 ^ 64 : ℕ)).toNat : ℤ) = delay % 2 ^ 64 := by omega
    rw [BitVec.toInt_setWidth, BitVec.toNat_ofInt, whole, Int.bmod_def, Int.bmod_def]
    omega
  case isFalse => decide

/-- `do_usleep` gives up the mutex and sleeps for a positive `int`, and otherwise returns. -/
theorem doUsleep_run (stack : List LuaValue)
    : doUsleep state stack thread
      = if 1 ≤ (howlong stack).toInt then
          ⟨[.ccall state, .unlock, .usleep (howlong stack), .lock .antiLockHolder,
            .creturn state], .ok ((), { thread with ownsMutex := true })⟩
        else
          ⟨[.ccall state, .creturn state], .ok ((), thread)⟩ := by
  rw [doUsleep_eq, Traced.Program.emit_bind_run]
  split
  case isTrue long =>
    rw [onlyIf, if_pos long]
    rfl
  case isFalse short =>
    rw [onlyIf, if_neg short]
    rfl

/-- The sleep asked for is the `int` where it is positive, and none otherwise. -/
theorem asked_doUsleep (stack : List LuaValue)
    : (asked (doUsleep state stack thread).trace : ℤ) = max 0 (howlong stack).toInt := by
  rw [doUsleep_run]
  split
  case isTrue long =>
    have request
        : asked [.ccall state, .unlock, .usleep (howlong stack), .lock .antiLockHolder,
            .creturn state]
          = (howlong stack).toNat := by
      simp [asked, Event.microseconds]
    have unsigned := BitVec.toInt_eq_toNat_cond (howlong stack)
    rw [request]
    omega
  case isFalse short =>
    have none : asked [.ccall state, .creturn state] = 0 := rfl
    rw [none]
    omega

/-- A call returns at once exactly where the `int` is not positive. -/
theorem returnsAtOnce_doUsleep (stack : List LuaValue)
    : ReturnsAtOnce (doUsleep state stack thread) ↔ (howlong stack).toInt < 1 := by
  rw [doUsleep_run]
  split
  case isTrue long =>
    refine iff_of_false ?_ (by omega)
    intro atOnce
    exact atOnce.2.1 (by simp)
  case isFalse short => exact iff_of_true ⟨rfl, by simp, rfl⟩ (by omega)

/-- The number is slept for as it is where it is a delay, and not at all where it is none. -/
def SleepsFor (state : LState) (others : List LuaValue) (thread : Thread) (delay : ℤ) : Prop :=
  (1 ≤ delay → asked (doUsleep state (delayStack others delay) thread).trace = delay)
    ∧ (ReturnsAtOnce (doUsleep state (delayStack others delay) thread) ↔ delay < 1)

/-- A number is slept for exactly where it is honoured. -/
theorem sleepsFor_iff {delay : ℤ} : SleepsFor state others thread delay ↔ Honoured delay := by
  rw [SleepsFor, asked_doUsleep, returnsAtOnce_doUsleep, howlong_delayStack, Int.bmod_def,
    Honoured]
  omega

/-- The sleep for an honoured number, which is none below 1. -/
theorem asked_honoured {delay : ℤ} (honoured : Honoured delay)
    : (asked (doUsleep state (delayStack others delay) thread).trace : ℤ) = max 0 delay := by
  have served : SleepsFor state others thread delay := sleepsFor_iff.mpr honoured
  rcases Int.lt_or_le delay 1 with none | some
  · have atOnce := served.2.mpr none
    rw [atOnce.2.2]
    omega
  · rw [served.1 some]
    omega

/-- Of two whole numbers, each is slept for as it is and the larger one no shorter, exactly
where both are honoured. Witness: the sleep for an honoured number is the number itself.
-/
theorem usleep_inOrder_iff {state' : LState} {others' : List LuaValue} {thread' : Thread}
    {m n : ℤ} (le : m ≤ n)
    : (asked (doUsleep state (delayStack others m) thread).trace
          ≤ asked (doUsleep state' (delayStack others' n) thread').trace
        ∧ SleepsFor state others thread m
        ∧ SleepsFor state' others' thread' n)
      ↔ Honoured m ∧ Honoured n := by
  rw [sleepsFor_iff, sleepsFor_iff]
  refine and_iff_right_of_imp ?_
  intro honoured
  have shorter := @asked_honoured state others thread m honoured.1
  have longer := @asked_honoured state' others' thread' n honoured.2
  omega

/-- A millisecond and half an hour, asked for under the mutex. -/
theorem usleep_halfHour_inOrder
    : asked (doUsleep .own (delayStack [] 1000) ⟨none, false, true, 0⟩).trace
        ≤ asked (doUsleep .own (delayStack [] 1800000000) ⟨none, false, true, 0⟩).trace
      ∧ SleepsFor .own [] ⟨none, false, true, 0⟩ 1000
      ∧ SleepsFor .own [] ⟨none, false, true, 0⟩ 1800000000 :=
  (usleep_inOrder_iff (by decide)).mpr ⟨by decide, by decide⟩

/-- The 36 minutes of `2 ^ 31` microseconds are slept shorter than one microsecond. -/
theorem usleep_outOfOrder
    : ¬ ∀ (state state' : LState) (others others' : List LuaValue) (thread thread' : Thread)
          (m n : ℤ),
        m ≤ n → n < 2 ^ 53
        → asked (doUsleep state (delayStack others m) thread).trace
              ≤ asked (doUsleep state' (delayStack others' n) thread').trace
            ∧ SleepsFor state others thread m
            ∧ SleepsFor state' others' thread' n := by
  intro always
  have shorter := (always .own .own [] [] ⟨none, false, true, 0⟩ ⟨none, false, true, 0⟩ 1 (2 ^ 31)
    (by decide) (by decide)).1
  exact absurd shorter (by decide)

end Labrea
