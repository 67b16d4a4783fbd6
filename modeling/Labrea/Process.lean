import Labrea.Library.Interleaving
import Labrea.Discipline

/-! The whole process from the end of `initScriptingState` on: the timer thread, any number
of application threads, one of which runs the exit handlers, and what they share: the mutex
and the stacks of the Lua universe.
-/

namespace Labrea

open Interleaving (Config)
open Traced.Monitor
open Traced.Program (each)

inductive Tid where
  | timer
  | app (n : Nat)
  deriving DecidableEq, Repr

/-- The `lua_State`s: `luaStateProto`, and those that `lua_newthread` has made of it. -/
inductive LuaRef where
  | proto
  | thread (id : Nat)
  deriving DecidableEq, Repr

/-- A stack slot, as far as it keeps a `lua_State` reachable. -/
inductive Slot where
  | value
  | thread (id : Nat)
  deriving DecidableEq, Repr

inductive FrameKind where
  | lua
  | c
  deriving DecidableEq, Repr

/-- A `CallInfo`: the call it belongs to, with the thread that made it, and its slots from
the top. Slots that Lua code itself uses are left out.
-/
structure LuaFrame where
  owner : Tid
  kind : FrameKind
  slots : List Slot
  deriving DecidableEq, Repr

/-- The stack of a `lua_State`: the frames of the calls in progress, the newest first, and
the frame that C code uses outside any call.
-/
structure LuaStack where
  frames : List LuaFrame
  base : List Slot
  deriving DecidableEq, Repr

namespace LuaStack

def empty : LuaStack := ⟨[], []⟩

/-- The slots that API functions work on. -/
def top (stack : LuaStack) : List Slot :=
  match stack.frames with
  | [] => stack.base
  | frame :: _ => frame.slots

def setTop (slots : List Slot) (stack : LuaStack) : LuaStack :=
  match stack.frames with
  | [] => { stack with base := slots }
  | frame :: below => { stack with frames := { frame with slots := slots } :: below }

def push (slot : Slot) (stack : LuaStack) : LuaStack :=
  stack.setTop (slot :: stack.top)

/-- A call takes its function and arguments off the frame it is made from. -/
def call (owner : Tid) (kind : FrameKind) (taken : Nat) (stack : LuaStack) : LuaStack :=
  let caller := stack.setTop (stack.top.drop taken)
  { caller with frames := ⟨owner, kind, []⟩ :: caller.frames }

/-- `luaD_poscall`: the newest frame goes, whichever thread returns. -/
def poscall (stack : LuaStack) : LuaStack :=
  match stack.frames with
  | [] => { stack with base := [] }
  | _ :: below => { stack with frames := below }

/-- An error unwinds to the newest `lua_pcall`, which leaves its message. The jump into a
`lua_pcall` of another thread is undefined.
-/
def throw (thread : Tid) (stack : LuaStack) : Option LuaStack :=
  match stack.frames with
  | [] => none
  | frame :: below =>
      if frame.owner = thread ∧ frame.kind = .lua then
        some ({ stack with frames := below }.push .value)
      else
        none

/-- The slot is on the stack, where the collector finds it. -/
def Holds (stack : LuaStack) (slot : Slot) : Prop :=
  slot ∈ stack.base ∨ ∃ frame ∈ stack.frames, slot ∈ frame.slots

end LuaStack

/-- What a thread does with a stack: the kind of a return is that of the frame it leaves. -/
inductive StackOp where
  | settop
  | push
  | call (kind : FrameKind) (taken : Nat)
  | ret (kind : FrameKind)
  | throw
  deriving DecidableEq, Repr

def LuaStack.apply (thread : Tid) (stack : LuaStack) : StackOp → Option LuaStack
  | .settop => some (stack.setTop [])
  | .push => some (stack.push .value)
  | .call kind taken => some (stack.call thread kind taken)
  | .ret _ => some stack.poscall
  | .throw => stack.throw thread

/-- The stack an event works on, and what it does there. -/
def Event.stackOp : Event → Option (LState × StackOp)
  | .settop state => some (state, .settop)
  | .push state => some (state, .push)
  | .pcall state args => some (state, .call .lua (args + 1))
  | .ccall state => some (state, .call .c 0)
  | .pcallReturn state => some (state, .ret .lua)
  | .creturn state => some (state, .ret .c)
  | .pcallError state => some (state, .throw)
  | _ => none

/-- `luamutex` with its owner, the states made so far, the values under `lua_thread_key`,
and the stacks.
-/
structure Shared where
  mutex : Option Tid
  created : Nat
  key : Tid → Option Nat
  stack : LuaRef → LuaStack

/-- The `lua_State` a thread works on. -/
def Shared.ref (shared : Shared) (thread : Tid) : LState → Option LuaRef
  | .proto => some .proto
  | .own => (shared.key thread).map .thread

/-- What performing an event does to the shared state. A locked mutex blocks, its owner
included.
-/
def perform (shared : Shared) (thread : Tid) : Event → Option Shared
  | .lock _ => if shared.mutex = none then some { shared with mutex := some thread } else none
  | .unlock => some { shared with mutex := none }
  | .newthread =>
      some { shared with
        created := shared.created + 1
        key := Function.update shared.key thread (some shared.created)
        stack := Function.update shared.stack .proto
          ((shared.stack .proto).push (.thread shared.created)) }
  | event =>
      match event.stackOp with
      | none => some shared
      | some (state, op) => do
          let ref ← shared.ref thread state
          let stack ← (shared.stack ref).apply thread op
          some { shared with stack := Function.update shared.stack ref stack }

/-- The events that leave the shared state alone. -/
def Event.isLocal : Event → Bool
  | .enter _ | .arm | .disarm | .hook _ _ _ | .lua _ | .usleep _ | .sleep
  | .original _ _ _ | .originalReturn _ | .report => true
  | _ => false

/-- Everything an event can do to the shared state. -/
theorem perform_cases {shared next : Shared} {thread : Tid} {event : Event}
    (performed : perform shared thread event = some next)
    : (∃ site, event = .lock site ∧ shared.mutex = none
        ∧ next = { shared with mutex := some thread })
      ∨ (event = .unlock ∧ next = { shared with mutex := none })
      ∨ (event = .newthread
        ∧ next = { shared with
          created := shared.created + 1
          key := Function.update shared.key thread (some shared.created)
          stack := Function.update shared.stack .proto
            ((shared.stack .proto).push (.thread shared.created)) })
      ∨ (∃ state op ref stack, event.stackOp = some (state, op)
        ∧ shared.ref thread state = some ref
        ∧ (shared.stack ref).apply thread op = some stack
        ∧ next = { shared with stack := Function.update shared.stack ref stack })
      ∨ (event.isLocal ∧ next = shared) := by
  cases event
  case lock site =>
    by_cases free : shared.mutex = none
    · simp only [perform, free, if_true, Option.some.injEq] at performed
      exact Or.inl ⟨site, rfl, free, performed.symm⟩
    · simp [perform, free] at performed
  case unlock =>
    exact Or.inr (Or.inl ⟨rfl, (Option.some.inj performed).symm⟩)
  case newthread =>
    exact Or.inr (Or.inr (Or.inl ⟨rfl, (Option.some.inj performed).symm⟩))
  case settop | push | pcall | pcallReturn | pcallError | ccall | creturn =>
    obtain ⟨ref, found, rest⟩ := Option.bind_eq_some_iff.mp performed
    obtain ⟨stack, used, done⟩ := Option.bind_eq_some_iff.mp rest
    exact Or.inr (Or.inr (Or.inr (Or.inl
      ⟨_, _, ref, stack, rfl, found, used, (Option.some.inj done).symm⟩)))
  all_goals
    exact Or.inr (Or.inr (Or.inr (Or.inr ⟨rfl, (Option.some.inj performed).symm⟩)))

-----------------------------------------------------------------------------------------
-- Processes
-----------------------------------------------------------------------------------------

/-- What happens in a process: what the callbacks of each tick do, the top-level calls of
each application thread, and the thread that exits, with what its exit handlers do and the
calls it still makes after them.
-/
structure Process where
  functions : List FType
  ticks : List Body
  calls : Nat → List Call
  main : Nat
  exiting : Body
  later : List Call
  errno : Tid → Int

namespace Process

variable (process : Process)

/-- What a thread runs. -/
def program : Tid → Run Unit
  | .timer =>
      each (fun tick : Body =>
          timerRound (tick.run process.functions .proto) (tick.report process.functions))
        process.ticks
  | .app n => do
      runCalls process.functions (process.calls n)
      onlyIf (n = process.main) do
        labreaExit (process.exiting.run process.functions .proto)
          (process.exiting.report process.functions)
        runCalls process.functions process.later

def role : Tid → Role
  | .timer => .timer
  | .app n => if n = process.main then .exiting else .app

/-- The thread-local state at the end of start-up, where the thread of `LabreaInit` has
allocated its flag and reset it.
-/
def thread (tid : Tid) : Thread where
  invocation := if tid = .app process.main then some false else none
  luaThread := false
  ownsMutex := false
  errno := process.errno tid

def view (tid : Tid) : View where
  role := process.role tid
  held := none
  armed := false
  registered := false
  frames := []
  pushed := 0
  due := 0
  tainted := false

/-- The end of start-up. -/
def start : Config Tid Event Shared View where
  shared := ⟨none, 0, fun _ => none, fun _ => LuaStack.empty⟩
  views := process.view
  rest tid := (process.program tid (process.thread tid)).trace

/-- The configurations of runs whose steps all meet a condition. -/
def Reaches (guard : Config Tid Event Shared View → Tid → Bool)
    (config : Config Tid Event Shared View)
    : Prop :=
  Interleaving.Reaches perform discipline guard process.start config

theorem view_idle (tid : Tid) : (process.view tid).Idle := ⟨rfl, rfl⟩

theorem sync (tid : Tid) : Sync (process.thread tid) (process.view tid) where
  mutex := rfl
  flag := by
    by_cases main : tid = .app process.main <;> simp [thread, view, main]
  key := rfl

/-- Every thread follows the discipline throughout. -/
theorem program_stays (tid : Tid)
    : Stays (process.program tid) (process.thread tid) (process.view tid) := by
  have idle := process.view_idle tid
  have sync := process.sync tid
  cases tid with
  | timer =>
      refine wp_each process.ticks ?_ ⟨sync, Kept.refl _⟩
      intro tick _ next last ⟨lastSync, kept⟩
      refine (stays_timerRound (tick.keeps _ .proto) (tick.keeps_report _) lastSync
        (kept.idle idle) kept.role).mono ?_
      intro _ _ _ ⟨roundSync, roundKept⟩
      exact ⟨roundSync, kept.trans roundKept⟩
  | app n =>
      refine stays_bind (keeps_runCalls _ _ _ _ sync idle.ready) ?_
      intro _ next last lastSync kept
      refine stays_onlyIf lastSync fun main => ?_
      have exits : last.role = .exiting := by
        rw [kept.role]
        exact if_pos main
      refine stays_bind (stays_labreaExit (process.exiting.keeps _ .proto)
        (process.exiting.keeps_report _) lastSync (kept.idle idle) exits) ?_
      intro _ _ _ exitSync exitKept
      exact keeps_runCalls _ _ _ _ exitSync (exitKept.idle (kept.idle idle)).ready

/-- The traces of a process are accepted. -/
theorem accepted (tid : Tid)
    : discipline.Accepts (process.start.views tid) (process.start.rest tid) :=
  (process.program_stays tid).1

end Process

/-- A callback calls `labrea.usleep`, thread 1 writes with a before hook, thread 0 exits. -/
def sleepingCallback : Process where
  functions := []
  ticks := [.returns [.usleep [.number (.finite 1000)]] .nil]
  calls n :=
    if n = 1 then [writeCall ⟨true, false, false⟩ (.value (.returns [] .nil))] else []
  main := 0
  exiting := .returns [] .nil
  later := []
  errno _ := 0

end Labrea
