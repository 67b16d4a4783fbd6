import Labrea.Discipline
import Labrea.Library.Partial
import Labrea.Loading

/-! The functions of `labrea` that a script calls and `luamutex`: which of them leave it as
they found it, in which of the contexts that run Lua code.
-/

namespace Labrea

open Traced (Monitor)
open Traced.Monitor
open Traced.Program (Begins begins_emit emit emit_run emit_bind_run bind_of_ok bind_of_error)

/-- The thread locks or unlocks the mutex. -/
def Event.isMutex : Event → Bool
  | .lock _ | .unlock => true
  | _ => false

/-- Watches whether a thread owns the mutex: it locks it only where it does not, and unlocks
it only where it does. It never waits for itself.
-/
def ownership : Monitor Event Halt Bool where
  next owns event :=
    match event with
    | .lock _ => true
    | .unlock => false
    | _ => owns
  allows owns event :=
    match event with
    | .lock _ => owns = false
    | .unlock => owns = true
    | _ => True
  mayHalt _ reason := reason ≠ .deadlock

/-- The program is accepted, and where it returns the mutex is owned as before. -/
def KeepsMutex {α : Type} (owns : Bool) (program : Run α) : Prop :=
  ∀ thread : Thread, thread.ownsMutex = owns
    → ownership.WP program (fun _ next last => next.ownsMutex = owns ∧ last = owns) thread owns

/-- The discipline of an untainted thread includes this one, by induction on the trace. -/
theorem ownership_of_discipline {view : View} {trace : List Event}
    (notTimer : view.role ≠ .timer) (clean : view.tainted = false)
    (accepted : discipline.Accepts view trace)
    : ownership.Accepts view.held.isSome trace
      ∧ ownership.after view.held.isSome trace = (discipline.after view trace).held.isSome := by
  induction trace generalizing view with
  | nil => exact ⟨trivial, rfl⟩
  | cons event rest ih =>
      rw [accepts_cons, discipline_allows, discipline_next] at accepted
      obtain ⟨allowed, later⟩ := accepted
      have clean' : (view.next event).tainted = false := by
        refine View.next_tainted clean ?_
        rintro func rfl
        exact View.taints_of_allows notTimer allowed
      have step : ownership.next view.held.isSome event = (view.next event).held.isSome := by
        cases event
        case push state => cases state <;> rfl
        all_goals rfl
      have permitted : ownership.allows view.held.isSome event := by
        cases event
        case lock site =>
          obtain ⟨free, _⟩ := allowed
          rcases free with unheld | tainted
          · exact (congrArg Option.isSome unheld)
          · exact absurd (clean.symm.trans tainted) (by simp)
        case unlock => exact allowed.1
        all_goals trivial
      obtain ⟨acceptedRest, afterRest⟩ := ih (by simpa using notTimer) clean' later
      rw [accepts_cons, after_cons, after_cons, step]
      exact ⟨⟨permitted, acceptedRest⟩, afterRest⟩

/-- Code that can run on a thread without the mutex keeps it unowned. -/
theorem Keeps.keepsMutex {α : Type} {program : Run α} (keeps : Keeps View.Ready program)
    : KeepsMutex false program := by
  intro thread unowned
  obtain ⟨view, notTimer, clean, free, accepted, returned, halted⟩ := keeps.ran_unowned unowned
  obtain ⟨acceptedOwner, afterOwner⟩ := ownership_of_discipline notTimer clean accepted
  rw [free] at acceptedOwner afterOwner
  refine ⟨acceptedOwner, ?_⟩
  match found : (program thread).result with
  | .ok (value, next) =>
      obtain ⟨stillUnowned, stillFree⟩ := returned value next found
      exact ⟨stillUnowned, afterOwner.trans (congrArg Option.isSome stillFree)⟩
  | .error reason =>
      rintro rfl
      exact halted found

section

variable {α β : Type} {owns : Bool}

theorem keepsMutex_pure {value : α} : KeepsMutex owns (pure value : Run α) :=
  fun _ owner => wp_pure ⟨owner, rfl⟩

theorem keepsMutex_halt {reason : Halt} (stops : reason ≠ .deadlock)
    : KeepsMutex owns (Traced.Program.halt reason : Run α) :=
  fun _ _ => wp_halt stops

theorem keepsMutex_emit {event : Event} (other : event.isMutex = false)
    : KeepsMutex owns (emit event) := by
  intro thread owner
  cases event
  case lock site => exact nomatch other
  case unlock => exact nomatch other
  all_goals exact wp_emit trivial ⟨owner, rfl⟩

theorem keepsMutex_bind {head : Run α} {rest : α → Run β} (first : KeepsMutex owns head)
    (later : ∀ value, KeepsMutex owns (rest value))
    : KeepsMutex owns (head >>= rest) := by
  intro thread owner
  refine wp_bind ((first thread owner).mono ?_)
  intro value next last holds
  rcases holds with ⟨owner', rfl⟩
  exact later value next owner'

theorem keepsMutex_setErrno (errno : Option Int) : KeepsMutex owns (setErrno errno) := by
  cases errno with
  | none => exact keepsMutex_pure
  | some value => exact fun _ owner => wp_modify ⟨owner, rfl⟩

/-- The mutex is released around code that keeps it unowned. -/
theorem keepsMutex_antiLockHolder {body : Run α} (keeps : KeepsMutex false body)
    : KeepsMutex true (antiLockHolder body) := by
  intro thread owner
  refine wp_bind (wp_bind (wp_emit rfl (wp_modify (wp_bind ?_))))
  refine (keeps { thread with ownsMutex := false } rfl).mono ?_
  intro value next last holds
  rcases holds with ⟨unowned, rfl⟩
  refine wp_bind (wp_of_ok (lockMutex_run unowned) ⟨rfl, trivial⟩ ?_)
  exact wp_pure ⟨rfl, rfl⟩

/-- The mutex is locked around code that keeps it owned. -/
theorem keepsMutex_lockHolder {site : Site} {body : Run α} (keeps : KeepsMutex true body)
    : KeepsMutex false (lockHolder site body) := by
  intro thread unowned
  refine wp_bind (wp_of_ok (lockMutex_run unowned) ⟨rfl, trivial⟩ ?_)
  refine wp_bind ((keeps { thread with ownsMutex := true } rfl).mono ?_)
  intro value next last holds
  rcases holds with ⟨owned, rfl⟩
  exact wp_bind (wp_bind (wp_emit rfl (wp_modify (wp_pure ⟨rfl, rfl⟩))))

/-- A program that begins with refused events is refused. -/
theorem refused_of_begins {program : Run α} {post : α → Thread → Bool → Prop}
    {thread : Thread} {events : List Event} (begins : Begins program thread events)
    (refused : ¬ ownership.Accepts owns events)
    : ¬ ownership.WP program post thread owns := by
  intro ⟨accepted, _⟩
  obtain ⟨rest, split⟩ := begins
  rw [← split, accepts_append] at accepted
  exact refused accepted.1

end

-----------------------------------------------------------------------------------------
-- The functions a script calls
-----------------------------------------------------------------------------------------

/-- A call of one of `labrea_funcs`; those that do not touch the mutex differ in what they do
to memory and `errno` only.
-/
inductive ScriptCall where
  | usleep (stack : List LuaValue)
  | invoke (stack : List LuaValue) (original : Original)
  | reinit (globals : CString → Bool)
  | lockFree (errno : Option Int)

variable (functions : List FType) (state : LState)

/-- The call as Lua code makes it, with the table it leaves. -/
def ScriptCall.run : ScriptCall → Run (List FType)
  | .usleep stack => do
      doUsleep state stack
      pure functions
  | .invoke stack original => do
      let _ ← doInvoke functions (fun _ _ => original.run functions) state stack
      pure functions
  | .reinit globals => doReinit globals state functions
  | .lockFree errno => do
      emit (.ccall state)
      setErrno errno
      emit (.creturn state)
      pure functions

/-- The microseconds `labrea.usleep` is asked for. -/
def howlong (stack : List LuaValue) : BitVec 32 :=
  ((stack.getLast?.map LuaValue.toInteger).getD 0).setWidth 32

/-- `labrea.invoke` gets as far as releasing the mutex: the position is that of an entry, and
the values fit the argument array.
-/
def reachesOriginal (stack : List LuaValue) : Prop :=
  ∃ n func, ((stackInteger stack 0).setWidth 32).toInt = (n : Nat)
    ∧ (functions ++ [nullEntry])[n]? = some func
    ∧ func.pos = n
    ∧ (stack.drop 1).length ≤ maxArgs

/-- What a call asks of the context it is made in: to sleep and to invoke an original, that
the mutex is owned; to reinitialise, that it is not.
-/
def ScriptCall.Suits (owns : Bool) : ScriptCall → Prop
  | .usleep stack => 1 ≤ (howlong stack).toInt → owns
  | .invoke stack _ => reachesOriginal functions stack → owns
  | .reinit _ => owns = false
  | .lockFree _ => True

/-- The call never waits for the mutex while its thread owns it, never unlocks it while its
thread does not, and returns with the mutex as when it was entered.
-/
def ScriptCall.Neutral (call : ScriptCall) (thread : Thread) : Prop :=
  ownership.WP (call.run functions state)
    (fun _ next last => next.ownsMutex = thread.ownsMutex ∧ last = thread.ownsMutex) thread
    thread.ownsMutex

section

variable {functions} {state}

theorem doUsleep_eq {stack : List LuaValue}
    : doUsleep state stack
      = (do
          emit (.ccall state)
          onlyIf (1 ≤ (howlong stack).toInt) (antiLockHolder (emit (.usleep (howlong stack))))
          emit (.creturn state)) :=
  rfl

/-- A neutral call that begins by unlocking the mutex is made by its owner. -/
theorem ScriptCall.owns_of_begins {call : ScriptCall} {thread : Thread}
    (neutral : call.Neutral functions state thread)
    (begins : Begins (call.run functions state) thread [.ccall state, .unlock])
    : thread.ownsMutex = true := by
  by_contra unowned
  rw [Bool.not_eq_true] at unowned
  refine refused_of_begins begins ?_ neutral
  rw [unowned]
  exact fun accepted => Bool.false_ne_true accepted.2.1

/-- A sleep releases the mutex if it is long enough. -/
theorem neutral_usleep {stack : List LuaValue} {thread : Thread}
    : ScriptCall.Neutral functions state (.usleep stack) thread
      ↔ (ScriptCall.usleep stack).Suits functions thread.ownsMutex := by
  constructor
  · intro neutral long
    refine ScriptCall.owns_of_begins neutral (Begins.bind ?_ _)
    rw [doUsleep_eq]
    refine Begins.after (emit_run _ _) (Begins.bind ?_ _)
    rw [onlyIf, if_pos long]
    exact (begins_emit.bind _).bind _
  · intro suits
    refine (?_ : KeepsMutex thread.ownsMutex
      ((ScriptCall.usleep stack).run functions state)) thread rfl
    refine keepsMutex_bind ?_ fun _ => keepsMutex_pure
    rw [doUsleep_eq]
    refine keepsMutex_bind (keepsMutex_emit rfl) fun _ => ?_
    refine keepsMutex_bind ?_ fun _ => keepsMutex_emit rfl
    rw [onlyIf]
    split
    case isFalse => exact keepsMutex_pure
    case isTrue long =>
      rw [suits long]
      exact keepsMutex_antiLockHolder (keepsMutex_emit rfl)

/-- `do_invoke` releases the mutex around an entry, or ends the process before that. -/
theorem doInvoke_cases (code : Addr → List Word → Run Word) (stack : List LuaValue)
    : (reachesOriginal functions stack
        ∧ ∃ func args,
            doInvoke functions code state stack
              = (do
                  emit (.ccall state)
                  let rv ← antiLockHolder (abstractInvoke code func args)
                  emit (.settop state)
                  emit (.push state)
                  emit (.creturn state)
                  pure (.number (pushInteger rv))))
      ∨ (¬ reachesOriginal functions stack
        ∧ ∃ reason, reason ≠ .deadlock
            ∧ doInvoke functions code state stack
              = (do
                  emit (.ccall state)
                  Traced.Program.halt reason)) := by
  by_cases named : ∃ (n : Nat) (func : FType), ((stackInteger stack 0).setWidth 32).toInt = n
      ∧ (functions ++ [nullEntry])[n]? = some func ∧ func.pos = n
  · obtain ⟨n, func, position, entry, placed⟩ := named
    have found := @doInvoke_found functions code state stack n func position entry placed
    by_cases many : maxArgs < ((stack.drop 1).map LuaValue.toInteger).length
    · refine Or.inr ⟨?_, .undefined, by simp, ?_⟩
      · intro holds
        obtain ⟨_, _, _, _, _, fits⟩ := holds
        rw [List.length_map] at many
        omega
      · rw [found]
        simp only [if_pos many]
    · refine Or.inl ⟨⟨n, func, position, entry, placed, ?_⟩, func,
        (stack.drop 1).map LuaValue.toInteger, ?_⟩
      · rw [List.length_map] at many
        omega
      · rw [found]
        simp only [if_neg many]
  · refine Or.inr ⟨?_, doInvoke_unfound ?_⟩
    · intro holds
      obtain ⟨n, func, position, entry, placed, _⟩ := holds
      exact named ⟨n, func, position, entry, placed⟩
    · intro n func position entry placed
      exact named ⟨n, func, position, entry, placed⟩

/-- `abstractInvoke` does not touch the mutex itself. -/
theorem keepsMutex_abstractInvoke {code : Addr → List Word → Run Word} {owns : Bool}
    (keeps : ∀ addr words, KeepsMutex owns (code addr words)) (func : FType)
    (args : List (BitVec 64))
    : KeepsMutex owns (abstractInvoke code func args) := by
  rw [abstractInvoke]
  split
  case isFalse => exact keepsMutex_halt nofun
  case isTrue =>
    split
    case h_2 => exact keepsMutex_halt nofun
    case h_1 =>
      split
      case h_2 => exact keepsMutex_halt nofun
      case h_1 =>
        refine keepsMutex_bind (keepsMutex_emit rfl) fun _ => ?_
        refine keepsMutex_bind (keeps _ _) fun _ => ?_
        exact keepsMutex_bind (keepsMutex_emit rfl) fun _ => keepsMutex_pure

/-- An invoke releases the mutex if it gets to its original. -/
theorem neutral_invoke {stack : List LuaValue} {original : Original} {thread : Thread}
    : ScriptCall.Neutral functions state (.invoke stack original) thread
      ↔ (ScriptCall.invoke stack original).Suits functions thread.ownsMutex := by
  have cases := @doInvoke_cases functions state (fun _ _ => original.run functions) stack
  constructor
  · intro neutral reaches
    rcases cases with ⟨_, func, args, run⟩ | ⟨stops, _⟩
    · refine ScriptCall.owns_of_begins neutral (Begins.bind ?_ _)
      rw [run]
      exact Begins.after (emit_run _ _) (((begins_emit.bind _).bind _).bind _)
    · exact absurd reaches stops
  · intro suits
    refine (?_ : KeepsMutex thread.ownsMutex
      ((ScriptCall.invoke stack original).run functions state)) thread rfl
    refine keepsMutex_bind ?_ fun _ => keepsMutex_pure
    rcases cases with ⟨reaches, func, args, run⟩ | ⟨_, reason, stops, run⟩
    · rw [run, suits reaches]
      refine keepsMutex_bind (keepsMutex_emit rfl) fun _ => ?_
      refine keepsMutex_bind ?_ fun _ => ?_
      · exact keepsMutex_antiLockHolder
          (keepsMutex_abstractInvoke (fun _ _ => (original.keeps functions).keepsMutex) func args)
      · refine keepsMutex_bind (keepsMutex_emit rfl) fun _ => ?_
        refine keepsMutex_bind (keepsMutex_emit rfl) fun _ => ?_
        exact keepsMutex_bind (keepsMutex_emit rfl) fun _ => keepsMutex_pure
    · rw [run]
      exact keepsMutex_bind (keepsMutex_emit rfl) fun _ => keepsMutex_halt stops

/-- `do_reinit` works on the stack under its lock. -/
theorem keepsMutex_reinitLoop {owns : Bool} (globals : CString → Bool)
    (functions : List FType)
    : KeepsMutex owns (reinitLoop globals state functions) := by
  induction functions with
  | nil => exact keepsMutex_pure
  | cons func rest ih =>
      have tested (fname : CString) : KeepsMutex owns (hasFunction globals state fname) :=
        keepsMutex_bind (keepsMutex_emit rfl) fun _ =>
          keepsMutex_bind (keepsMutex_emit rfl) fun _ => keepsMutex_pure
      refine keepsMutex_bind ?_ fun _ => keepsMutex_bind ih fun _ => keepsMutex_pure
      refine keepsMutex_bind (tested _) fun _ => ?_
      refine keepsMutex_bind (tested _) fun _ => ?_
      exact keepsMutex_bind (tested _) fun _ => keepsMutex_pure

/-- A reinit locks the mutex. -/
theorem neutral_reinit {globals : CString → Bool} {thread : Thread}
    : ScriptCall.Neutral functions state (.reinit globals) thread
      ↔ (ScriptCall.reinit globals).Suits functions thread.ownsMutex := by
  constructor
  · intro neutral
    by_contra owned
    rw [ScriptCall.Suits, Bool.not_eq_false] at owned
    have run : (ScriptCall.reinit globals).run functions state thread
        = ⟨[.ccall state, .lock .doReinit], .error .deadlock⟩ :=
      doReinit_owned globals state functions owned
    obtain ⟨_, ended⟩ := neutral
    rw [run] at ended
    exact ended rfl
  · intro suits
    refine (?_ : KeepsMutex thread.ownsMutex ((ScriptCall.reinit globals).run functions state))
      thread rfl
    rw [suits]
    refine keepsMutex_bind (keepsMutex_emit rfl) fun _ => ?_
    refine keepsMutex_bind (keepsMutex_lockHolder (keepsMutex_reinitLoop globals functions))
      fun _ => ?_
    exact keepsMutex_bind (keepsMutex_emit rfl) fun _ => keepsMutex_pure

/-- A call leaves the mutex alone exactly where its thread owns it as the call needs. -/
theorem neutral_iff_suits {call : ScriptCall} {thread : Thread}
    : call.Neutral functions state thread ↔ call.Suits functions thread.ownsMutex := by
  cases call with
  | usleep stack => exact neutral_usleep
  | invoke stack original => exact neutral_invoke
  | reinit globals => exact neutral_reinit
  | lockFree errno =>
      refine iff_of_true ?_ trivial
      refine (?_ : KeepsMutex thread.ownsMutex ((ScriptCall.lockFree errno).run functions state))
        thread rfl
      refine keepsMutex_bind (keepsMutex_emit rfl) fun _ => ?_
      refine keepsMutex_bind (keepsMutex_setErrno errno) fun _ => ?_
      exact keepsMutex_bind (keepsMutex_emit rfl) fun _ => keepsMutex_pure

end

end Labrea
