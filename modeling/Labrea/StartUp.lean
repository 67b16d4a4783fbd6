import Labrea.Process
import Labrea.Reinit

/-! Start-up: hooked calls on any thread before, while and after `LabreaInit` runs, step by
step, with the thread-specific values that `LuaInvocation` uses.
-/

namespace Labrea.StartUp

/-- Who created a key. -/
inductive Owner where
  | labrea
  | other
  deriving DecidableEq, Repr

/-- The keys that exist, the value under each key on each thread (`none` for a null pointer),
and the bytes that values point to.
-/
structure Specifics where
  owner : Nat → Option Owner
  value : Tid → Nat → Option Addr
  cell : Addr → Bool

namespace Specifics

/-- `pthread_key_create` chooses a key that is not in use; its values are null. -/
def createKey (specifics : Specifics) (owner : Owner) (key : Nat) : Option Specifics :=
  if specifics.owner key = none then
    some { specifics with
      owner := Function.update specifics.owner key (some owner)
      value := fun tid => Function.update (specifics.value tid) key none }
  else
    none

/-- `pthread_getspecific` gives null for a key that does not exist. -/
def getspecific (specifics : Specifics) (tid : Tid) (key : Nat) : Option Addr :=
  if (specifics.owner key).isSome then specifics.value tid key else none

/-- `pthread_setspecific` fails for a key that does not exist. -/
def setspecific (specifics : Specifics) (tid : Tid) (key : Nat) (pos : Addr)
    : Option Specifics :=
  if (specifics.owner key).isSome then
    some { specifics with
      value := Function.update specifics.value tid
        (Function.update (specifics.value tid) key (some pos)) }
  else
    none

def store (specifics : Specifics) (pos : Addr) (flag : Bool) : Specifics :=
  { specifics with cell := Function.update specifics.cell pos flag }

/-- The flag of a thread as `Thread.invocation` has it. -/
def invocation (specifics : Specifics) (tid : Tid) (key : Nat) : Option Bool :=
  (specifics.value tid key).map specifics.cell

end Specifics

/-- What `LuaInvocation::LuaInvocation` does next: `pthread_getspecific`, `calloc` with
`pthread_setspecific`, or the test of the flag at `pos`.
-/
inductive Construct where
  | lookup
  | allocate
  | test (pos : Addr)
  deriving DecidableEq, Repr

inductive Constructed where
  | going (next : Construct)
  | built (ready : Bool) (pos : Addr)
  | aborted
  deriving DecidableEq, Repr

/-- One step under the key; `fresh` is what `calloc` returns. -/
def Construct.step (key : Nat) (tid : Tid) (fresh : Addr) (specifics : Specifics)
    : Construct → Constructed × Specifics
  | .lookup =>
      match specifics.getspecific tid key with
      | some pos => (.going (.test pos), specifics)
      | none => (.going .allocate, specifics)
  | .allocate =>
      match (specifics.store fresh false).setspecific tid key fresh with
      | some specifics => (.going (.test fresh), specifics)
      | none => (.aborted, specifics.store fresh false)
  | .test pos =>
      if specifics.cell pos then
        (.built false pos, specifics)
      else
        (.built true pos, specifics.store pos true)

/-- The owner of the key whose value a step reads or writes. -/
def Construct.touches (owner : Option Owner) : Construct → List Owner
  | .lookup | .allocate => owner.toList
  | .test _ => []

-----------------------------------------------------------------------------------------
-- Hooked calls
-----------------------------------------------------------------------------------------

/-- Where a call of `wrapper` is: in the constructor of its `LuaInvocation`, before and in
its original, or before the destructor. A call that finds an enabled hook is followed no
further.
-/
inductive Stage where
  | building (construct : Construct)
  | built (ready : Bool) (pos : Addr)
  | running (ready : Bool) (pos : Addr)
  | ending (ready : Bool) (pos : Addr) (value : CValue)
  | returned (value : CValue)
  | aborted
  | hooked
  deriving DecidableEq, Repr

/-- A call of the function at position `n`, with the owners of the keys it used, its
originals and what these returned.
-/
structure Activation where
  n : Nat
  rv : CType
  args : List CValue
  stage : Stage
  touched : List Owner
  originals : List (Addr × List Word)
  answers : List Word
  deriving DecidableEq, Repr

/-- Where `LabreaInit` is: before it, after the first key of `initPthreadKeys`, in its
`LuaInvocation`, at a position of the table, in `initScriptingState`, or after it.
-/
inductive Init where
  | before
  | keys
  | invocation (construct : Construct)
  | table (ready : Bool) (pos : Addr) (n : Nat)
  | scripting (ready : Bool) (pos : Addr)
  | done
  deriving DecidableEq, Repr

/-- `initPthreadKeys` has set `invocation_state_key`. -/
def Init.keyed : Init → Bool
  | .before | .keys => false
  | _ => true

/-- The process: `key` is `invocation_state_key`, `table` is `functions[]`, `active` has the
calls in progress of each thread, the innermost first.
-/
structure State where
  specifics : Specifics
  key : Nat
  table : List FType
  init : Init
  active : Tid → List Activation
  finished : List Activation

/-- What happens: another library creates a key or sets one of its values, `LabreaInit` takes
a step, a script reinitialises, a thread makes a hooked call, its innermost call takes a step,
or the original of that call returns. `fresh` is a key or the address that `calloc` returns.
-/
inductive Action where
  | otherCreates (key : Nat)
  | otherSets (tid : Tid) (key : Nat) (pos : Addr) (byte : Bool)
  | initialises (fresh : Nat)
  | reinitialises (globals : CString → Bool)
  | calls (tid : Tid) (n : Nat) (args : List CValue)
  | proceeds (tid : Tid) (fresh : Addr)
  | answers (tid : Tid) (word : Word)

variable (functions : Functions) (main : Tid)

/-- Before anything has happened no key exists and the table is as it was compiled. -/
def State.start : State where
  specifics := ⟨fun _ => none, fun _ _ => none, fun _ => false⟩
  key := 0
  table := functions.defs.map Define.entry
  init := .before
  active _ := []
  finished := []

/-- The next step of `LabreaInit`, which runs on the thread `main`. -/
def State.initialise (state : State) (fresh : Nat) : Option State :=
  match state.init with
  | .before =>
      (state.specifics.createKey .labrea fresh).map fun specifics =>
        { state with specifics := specifics, init := .keys }
  | .keys =>
      (state.specifics.createKey .labrea fresh).map fun specifics =>
        { state with specifics := specifics, key := fresh, init := .invocation .lookup }
  | .invocation construct =>
      match construct.step state.key main fresh state.specifics with
      | (.going next, specifics) =>
          some { state with specifics := specifics, init := .invocation next }
      | (.built ready pos, specifics) =>
          some { state with specifics := specifics, init := .table ready pos 0 }
      | (.aborted, _) => none
  | .table ready pos n =>
      match state.table[n]? with
      | none => some { state with init := .scripting ready pos }
      | some func =>
          (computeOffset { func with pos := n }).map fun offset =>
            { state with
              table := state.table.set n
                { func with pos := n, offset := offset, orig := some (functions.orig func.name) }
              init := .table ready pos (n + 1) }
  | .scripting ready pos =>
      some { state with
        specifics := if ready then state.specifics.store pos false else state.specifics
        init := .done }
  | .done => none

/-- What `LuaInvocation::LuaInvocation` leads a call to. -/
def Stage.ofConstructed : Constructed → Stage
  | .going next => .building next
  | .built ready pos => .built ready pos
  | .aborted => .aborted

/-- `wrapper` after its `LuaInvocation`, up to the call of the original in `invoke`. `dlsym`
finds every original.
-/
def Activation.resolve (func : FType) (ready : Bool) (pos : Addr) (call : Activation)
    : Activation :=
  if ready ∧ func.hooked then
    { call with stage := .hooked }
  else if func.numArgs = call.args.length then
    match func.orig.or (some (functions.orig func.name)) with
    | none => { call with stage := .aborted }
    | some addr =>
        { call with
          stage := .running ready pos
          originals := call.originals ++ [(addr, call.args.map CValue.word)] }
  else
    { call with stage := .aborted }

/-- The next step of a call in `wrapper`; `none` while its original runs. -/
def Activation.advance (state : State) (tid : Tid) (fresh : Addr) (call : Activation)
    : Option (Activation × Specifics) :=
  match call.stage with
  | .building construct =>
      let (constructed, specifics) := construct.step state.key tid fresh state.specifics
      some ({ call with
        stage := .ofConstructed constructed
        touched := call.touched ++ construct.touches (state.specifics.owner state.key) },
        specifics)
  | .built ready pos =>
      state.table[call.n]?.map fun func => (call.resolve functions func ready pos, state.specifics)
  | .ending ready pos value =>
      some ({ call with stage := .returned value },
        if ready then state.specifics.store pos false else state.specifics)
  | .running _ _ | .returned _ | .aborted | .hooked => none

/-- The original of the call returns. -/
def Activation.answer (call : Activation) (word : Word) : Option Activation :=
  match call.stage with
  | .running ready pos =>
      some { call with
        stage := .ending ready pos (call.rv.ofWord word)
        answers := call.answers ++ [word] }
  | _ => none

/-- The innermost call of a thread, over those below it, goes on as `call`. -/
def State.put (state : State) (tid : Tid) (below : List Activation) (call : Activation)
    : State :=
  match call.stage with
  | .returned _ =>
      { state with
        active := Function.update state.active tid below
        finished := call :: state.finished }
  | _ => { state with active := Function.update state.active tid (call :: below) }

/-- A thread makes a hooked call outside any, or where the original of one runs. -/
def mayCall : List Activation → Bool
  | [] => true
  | call :: _ =>
      match call.stage with
      | .running _ _ => true
      | _ => false

def State.step (state : State) : Action → Option State
  | .otherCreates key =>
      (state.specifics.createKey .other key).map fun specifics =>
        { state with specifics := specifics }
  | .otherSets tid key pos byte =>
      if state.specifics.owner key = some .other then
        ((state.specifics.store pos byte).setspecific tid key pos).map fun specifics =>
          { state with specifics := specifics }
      else
        none
  | .initialises fresh => state.initialise functions main fresh
  | .reinitialises globals =>
      some { state with table := state.table.map (FType.flagged globals) }
  | .calls tid n args =>
      match functions.defs[n]? with
      | none => none
      | some define =>
          if args.map CValue.type = define.args ∧ mayCall (state.active tid) then
            some (state.put tid (state.active tid)
              ⟨n, define.rv, args, .building .lookup, [], [], []⟩)
          else
            none
  | .proceeds tid fresh =>
      match state.active tid with
      | [] => none
      | call :: below =>
          (call.advance functions state tid fresh).map fun (call, specifics) =>
            ({ state with specifics := specifics }.put tid below call)
  | .answers tid word =>
      match state.active tid with
      | [] => none
      | call :: below => (call.answer word).map (state.put tid below)

/-- Steps of `LuaInvocation::LuaInvocation` that lead to its end. -/
inductive Construct.Builds (key : Nat) (tid : Tid)
    : Construct → Specifics → Bool → Addr → Specifics → Prop where
  | last {construct : Construct} {fresh : Addr} {specifics after : Specifics} {ready : Bool}
    {pos : Addr}
    (stepped : construct.step key tid fresh specifics = (.built ready pos, after))
    : Builds key tid construct specifics ready pos after
  | going {construct next : Construct} {fresh : Addr} {specifics middle after : Specifics}
    {ready : Bool} {pos : Addr}
    (stepped : construct.step key tid fresh specifics = (.going next, middle))
    (builds : Builds key tid next middle ready pos after)
    : Builds key tid construct specifics ready pos after

/-- A value can be set under a key that exists. -/
theorem Specifics.setspecific_exists {specifics : Specifics} {tid : Tid} {key : Nat}
    (exists' : (specifics.owner key).isSome) (pos : Addr)
    : ∃ after,
        specifics.setspecific tid key pos = some after
        ∧ after.value tid key = some pos
        ∧ after.cell = specifics.cell :=
  ⟨_, if_pos exists', by simp only [Function.update_self], rfl⟩

/-- Under a key that exists, `LuaInvocation` does with the flag of its thread what
`luaInvocation` does.
-/
theorem Construct.builds_luaInvocation {key : Nat} {tid : Tid} {specifics : Specifics}
    {thread : Thread} (exists' : (specifics.owner key).isSome)
    (same : thread.invocation = specifics.invocation tid key)
    : ∃ ready pos after trace,
        Construct.Builds key tid .lookup specifics ready pos after
        ∧ after.invocation tid key = some true
        ∧ luaInvocation thread
          = ⟨trace, .ok (ready, { thread with invocation := some true })⟩ := by
  have got : specifics.getspecific tid key = specifics.value tid key := if_pos exists'
  rw [Specifics.invocation] at same
  match value : specifics.value tid key with
  | none =>
      rw [value] at same
      have looked
          : Construct.step key tid 0 specifics .lookup = (.going .allocate, specifics) := by
        simp only [Construct.step, got, value]
      obtain ⟨middle, set, here, cell⟩ :=
        @Specifics.setspecific_exists (specifics.store 0 false) tid key exists' 0
      have allocated
          : Construct.step key tid 0 specifics .allocate = (.going (.test 0), middle) := by
        simp only [Construct.step, set]
      have cleared : middle.cell 0 = false := by
        simp only [cell, Specifics.store, Function.update_self]
      have tested
          : Construct.step key tid 0 middle (.test 0) = (.built true 0, middle.store 0 true) := by
        simp [Construct.step, cleared]
      refine ⟨true, 0, middle.store 0 true, [.arm],
        .going looked (.going allocated (.last tested)), ?_, luaInvocation_ready ?_⟩
      · simp [Specifics.invocation, Specifics.store, here]
      · rw [same]
        exact nofun
  | some pos =>
      rw [value] at same
      have looked
          : Construct.step key tid 0 specifics .lookup = (.going (.test pos), specifics) := by
        simp only [Construct.step, got, value]
      match flag : specifics.cell pos with
      | true =>
          have tested
              : Construct.step key tid 0 specifics (.test pos) = (.built false pos, specifics) := by
            simp [Construct.step, flag]
          have set : thread.invocation = some true := by rw [same, Option.map_some, flag]
          refine ⟨false, pos, specifics, [], .going looked (.last tested), ?_, ?_⟩
          · rw [Specifics.invocation, value, Option.map_some, flag]
          · rw [luaInvocation_nested set, ← set]
      | false =>
          have tested
              : Construct.step key tid 0 specifics (.test pos)
                = (.built true pos, specifics.store pos true) := by
            simp [Construct.step, flag]
          refine ⟨true, pos, specifics.store pos true, [.arm], .going looked (.last tested), ?_,
            luaInvocation_ready ?_⟩
          · simp [Specifics.invocation, Specifics.store, value]
          · rw [same, Option.map_some, flag]
            exact nofun

end Labrea.StartUp
