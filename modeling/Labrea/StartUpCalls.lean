import Labrea.Library.Machine
import Labrea.StartUp

/-! Which hooked calls are safe: those whose `LuaInvocation` uses labrea's own key. -/

namespace Labrea.StartUp

open Machine (exec exec_keeps exec_iff_meets Meets)

variable {functions : Functions} {main : Tid}

/-- Every call made so far satisfies a property. -/
def State.All (property : Activation → Prop) (state : State) : Prop :=
  (∀ call ∈ state.finished, property call) ∧ ∀ tid, ∀ call ∈ state.active tid, property call

/-- The call has not aborted, and has used no key of another library. -/
def Activation.Clean (call : Activation) : Prop :=
  call.stage ≠ .aborted ∧ ∀ owner ∈ call.touched, owner = .labrea

/-- The original of a call is called with its arguments exactly once, before it returns, and
its value is what the call returns.
-/
def Activation.Once (functions : Functions) (call : Activation) : Prop :=
  ∃ define,
    functions.defs[call.n]? = some define
    ∧ call.originals <+: [(functions.orig define.n, call.args.map CValue.word)]
    ∧ ∀ value, call.stage = .returned value
      → call.originals = [(functions.orig define.n, call.args.map CValue.word)]
        ∧ ∃ word, call.answers = [word] ∧ value = define.rv.ofWord word

/-- The call meets its contract. -/
def Activation.Safe (functions : Functions) (call : Activation) : Prop :=
  call.Clean ∧ call.Once functions

/-- A call that is not waiting for its original takes its next step, and one that is goes on
when the original returns.
-/
def State.GoesOn (functions : Functions) (main : Tid) (state : State) : Prop :=
  ∀ tid call below, state.active tid = call :: below
    → call.stage ≠ .aborted
    → call.stage ≠ .hooked
    → ∀ fresh word,
        (state.step functions main (.proceeds tid fresh)).isSome
        ∨ (state.step functions main (.answers tid word)).isSome

/-- A step of `LuaInvocation` does no harm under a key with this owner: a key of another
library is not looked up, and only labrea's own is set.
-/
def Construct.Fits (owner : Option Owner) : Construct → Prop
  | .lookup => owner ≠ some .other
  | .allocate => owner = some .labrea
  | .test _ => True

/-- A call uses `invocation_state_key` after `initPthreadKeys` has set it, or finds that the
step does no harm under key 0.
-/
def State.Timely (state : State) : Action → Prop
  | .proceeds tid _ =>
      ∀ call below construct, state.active tid = call :: below
        → call.stage = .building construct
        → state.init.keyed ∨ construct.Fits (state.specifics.owner 0)
  | _ => True

/-- Every call other than the innermost one of a thread satisfies a property. -/
def State.Others (property : Activation → Prop) (tid : Tid) (below : List Activation)
    (state : State) : Prop :=
  (∀ call ∈ state.finished, property call)
  ∧ (∀ call ∈ below, property call)
  ∧ ∀ other, other ≠ tid → ∀ call ∈ state.active other, property call

theorem State.all_iff {property : Activation → Prop} {state : State} {tid : Tid}
    : state.All property ↔ state.Others property tid (state.active tid) := by
  constructor
  · intro ⟨finished, active⟩
    exact ⟨finished, active tid, fun other _ => active other⟩
  · intro ⟨finished, own, others⟩
    refine ⟨finished, fun other => ?_⟩
    by_cases same : other = tid
    · rw [same]
      exact own
    · exact others other same

theorem State.others_cons {property : Activation → Prop} {state : State} {tid : Tid}
    {call : Activation} {below : List Activation}
    : state.Others property tid (call :: below)
      ↔ property call ∧ state.Others property tid below := by
  simp only [State.Others, List.forall_mem_cons]
  tauto

/-- Putting a call in place of the innermost one changes no other call. -/
theorem State.all_put {property : Activation → Prop} {state : State} {tid : Tid}
    {below : List Activation} {call : Activation}
    : (state.put tid below call).All property
      ↔ property call ∧ state.Others property tid below := by
  have others (calls : List Activation)
      : (∀ other, other ≠ tid
          → ∀ call ∈ Function.update state.active tid calls other, property call)
        ↔ ∀ other, other ≠ tid → ∀ call ∈ state.active other, property call :=
    forall₂_congr fun other different => by rw [Function.update_of_ne different]
  rw [@State.all_iff _ _ tid, State.put]
  split
  all_goals
    simp only [State.Others, Function.update_self, others, List.forall_mem_cons]
    tauto

/-- A step of `LuaInvocation` keeps the owners of keys, and aborts only in setting a key that
does not exist.
-/
theorem Construct.step_cases {key : Nat} {tid : Tid} {fresh : Addr}
    {specifics next : Specifics} {construct : Construct} {constructed : Constructed}
    (stepped : construct.step key tid fresh specifics = (constructed, next))
    : next.owner = specifics.owner
      ∧ (constructed = .aborted ↔ construct = .allocate ∧ specifics.owner key = none) := by
  cases construct with
  | lookup =>
      rw [Construct.step] at stepped
      split at stepped
      all_goals
        cases stepped
        exact ⟨rfl, by simp⟩
  | allocate =>
      rw [Construct.step, Specifics.setspecific, Specifics.store] at stepped
      split_ifs at stepped with exists'
      case pos =>
        cases stepped
        refine ⟨rfl, iff_of_false (by simp) fun missing => ?_⟩
        rw [missing.2] at exists'
        cases exists'
      case neg =>
        cases stepped
        exact ⟨rfl, fun _ => ⟨rfl, Option.not_isSome_iff_eq_none.mp exists'⟩, fun _ => rfl⟩
  | test pos =>
      rw [Construct.step] at stepped
      split at stepped
      all_goals
        cases stepped
        exact ⟨rfl, by simp⟩

/-- A step does no harm where it does not set a missing key and touches labrea's keys only. -/
theorem Construct.fits_iff {owner : Option Owner} {construct : Construct}
    : construct.Fits owner
      ↔ ¬ (construct = .allocate ∧ owner = none)
        ∧ ∀ touched ∈ construct.touches owner, touched = .labrea := by
  rcases owner with _ | _ | _ <;> cases construct <;> simp [Construct.Fits, Construct.touches]

/-- The table has the names and arities of `calls.defs`, and where it has originals they are
the right ones.
-/
structure TableShape (functions : Functions) (table : List FType) : Prop where
  lengths : table.length = functions.defs.length
  entries
    : ∀ (n : Nat) (func : FType), table[n]? = some func
      → ∃ define : Define, functions.defs[n]? = some define
        ∧ func.name = define.n
        ∧ func.numArgs = define.args.length
        ∧ ∀ addr, func.orig = some addr → addr = functions.orig define.n

/-- A call has called its original as often as its stage says. -/
def Activation.Shape (functions : Functions) (call : Activation) : Prop :=
  ∃ define,
    functions.defs[call.n]? = some define
    ∧ call.args.map CValue.type = define.args
    ∧ call.rv = define.rv
    ∧ match call.stage with
      | .building _ | .built _ _ | .aborted | .hooked =>
          call.originals = [] ∧ call.answers = []
      | .running _ _ =>
          call.originals = [(functions.orig define.n, call.args.map CValue.word)]
          ∧ call.answers = []
      | .ending _ _ value | .returned value =>
          call.originals = [(functions.orig define.n, call.args.map CValue.word)]
          ∧ ∃ word, call.answers = [word] ∧ value = define.rv.ofWord word

/-- A call that has returned is over. -/
def State.Ongoing (state : State) : Prop :=
  ∀ tid, ∀ call ∈ state.active tid, ∀ value, call.stage ≠ .returned value

theorem State.Ongoing.put {state : State} {tid : Tid} {below : List Activation}
    {call : Activation} (ongoing : state.Ongoing)
    (inside : ∀ call ∈ below, call ∈ state.active tid)
    : (state.put tid below call).Ongoing := by
  intro other
  rw [State.put]
  split
  case h_1 =>
    by_cases same : other = tid
    · subst same
      simp only [Function.update_self]
      exact fun call member => ongoing other call (inside call member)
    · simpa only [Function.update_of_ne same] using ongoing other
  case h_2 going =>
    by_cases same : other = tid
    · subst same
      simp only [Function.update_self, List.forall_mem_cons]
      exact ⟨going, fun call member => ongoing other call (inside call member)⟩
    · simpa only [Function.update_of_ne same] using ongoing other

/-- What holds in every state: labrea owns its key once it is set, before that the key is 0. -/
structure State.Shape (functions : Functions) (state : State) : Prop where
  table : TableShape functions state.table
  keyed : state.init.keyed → state.specifics.owner state.key = some .labrea
  early : state.init.keyed = false → state.key = 0
  calls : state.All (Activation.Shape functions)
  ongoing : state.Ongoing

/-- The original of a call is the right one whether or not the table has it yet. -/
theorem TableShape.resolved {table : List FType} {n : Nat} {func : FType} {define : Define}
    (shape : TableShape functions table) (found : table[n]? = some func)
    (line : functions.defs[n]? = some define)
    : func.numArgs = define.args.length
      ∧ func.orig.or (some (functions.orig func.name)) = some (functions.orig define.n) := by
  obtain ⟨define', line', name, arity, orig⟩ := shape.entries n func found
  rw [line] at line'
  cases line'
  refine ⟨arity, ?_⟩
  match filled : func.orig with
  | none => rw [Option.none_or, name]
  | some addr => rw [Option.some_or, orig addr filled]

/-- A call resolves to its own original, or meets a hook. -/
theorem Activation.resolve_spec {table : List FType} {func : FType} {ready : Bool}
    {pos : Addr} {call : Activation} {define : Define}
    (shape : TableShape functions table) (found : table[call.n]? = some func)
    (line : functions.defs[call.n]? = some define)
    (types : call.args.map CValue.type = define.args)
    : call.resolve functions func ready pos = { call with stage := .hooked }
      ∨ call.resolve functions func ready pos
        = { call with
          stage := .running ready pos
          originals := call.originals
            ++ [(functions.orig define.n, call.args.map CValue.word)] } := by
  obtain ⟨arity, orig⟩ := shape.resolved found line
  have full : func.numArgs = call.args.length := by
    rw [arity, ← types, List.length_map]
  by_cases hooked : ready ∧ func.hooked
  · exact Or.inl (if_pos hooked)
  · rw [Activation.resolve, if_neg hooked, if_pos full, orig]
    exact Or.inr rfl

/-- A step of a call keeps its shape and the owners of keys. It keeps the call clean exactly if
it is not a step of `LuaInvocation` that does harm.
-/
theorem Activation.advance_spec {state : State} {tid : Tid} {fresh : Addr}
    {call next : Activation} {specifics : Specifics}
    (table : TableShape functions state.table) (shape : call.Shape functions)
    (advanced : call.advance functions state tid fresh = some (next, specifics))
    : next.Shape functions
      ∧ specifics.owner = state.specifics.owner
      ∧ (next.Clean
        ↔ call.Clean
          ∧ ∀ construct, call.stage = .building construct
            → construct.Fits (state.specifics.owner state.key)) := by
  obtain ⟨n, rv, args, stage, touched, originals, answers⟩ := call
  obtain ⟨define, line, types, rv, quiet⟩ := shape
  cases stage with
  | building construct =>
      match stepped : construct.step state.key tid fresh state.specifics with
      | (constructed, after) =>
        obtain ⟨owners, aborts⟩ := Construct.step_cases stepped
        simp only [Activation.advance, stepped, Option.some.injEq, Prod.mk.injEq] at advanced
        obtain ⟨rfl, rfl⟩ := advanced
        refine ⟨⟨define, line, types, rv, ?_⟩, owners, ?_⟩
        · cases constructed <;> exact quiet
        · have stays : Stage.ofConstructed constructed ≠ .aborted ↔ constructed ≠ .aborted := by
            cases constructed <;> simp [Stage.ofConstructed]
          simp only [Activation.Clean, stays, ne_eq, aborts, List.forall_mem_append,
            Stage.building.injEq, forall_eq', Construct.fits_iff, reduceCtorEq, not_false_eq_true,
            true_and]
          tauto
  | built ready pos =>
      obtain ⟨func, found, step⟩ := Option.map_eq_some_iff.mp advanced
      cases step
      obtain ⟨rfl, rfl⟩ := quiet
      refine ⟨?_, rfl, ?_⟩
      · rcases Activation.resolve_spec table found line types with hooked | running
        · rw [hooked]
          exact ⟨define, line, types, rv, rfl, rfl⟩
        · rw [running]
          exact ⟨define, line, types, rv, rfl, rfl⟩
      · rcases Activation.resolve_spec table found line types with hooked | running
        · rw [hooked]
          simp [Activation.Clean]
        · rw [running]
          simp [Activation.Clean]
  | ending ready pos value =>
      cases advanced
      refine ⟨⟨define, line, types, rv, quiet⟩, ?_, ?_⟩
      · cases ready <;> rfl
      · simp [Activation.Clean]
  | running | returned | aborted | hooked => exact nomatch advanced

/-- The return of its original ends a call with the original's value. -/
theorem Activation.answer_spec {call next : Activation} {word : Word}
    (shape : call.Shape functions) (answered : call.answer word = some next)
    : next.Shape functions ∧ (next.Clean ↔ call.Clean) := by
  obtain ⟨n, rv, args, stage, touched, originals, answers⟩ := call
  obtain ⟨define, line, types, rfl, quiet⟩ := shape
  cases stage with
  | running ready pos =>
      obtain ⟨once, rfl⟩ := quiet
      cases answered
      refine ⟨⟨define, line, types, rfl, once, word, rfl, rfl⟩, ?_⟩
      simp [Activation.Clean]
  | building | built | ending | returned | aborted | hooked => exact nomatch answered

-----------------------------------------------------------------------------------------
-- What holds in every state
-----------------------------------------------------------------------------------------

/-- A key that exists keeps its owner when another one is created. -/
theorem Specifics.createKey_spec {specifics next : Specifics} {owner : Owner} {key : Nat}
    (created : specifics.createKey owner key = some next)
    : next.owner key = some owner
      ∧ ∀ other found, specifics.owner other = some found → next.owner other = some found := by
  rw [Specifics.createKey] at created
  split_ifs at created with unused
  cases created
  refine ⟨Function.update_self .., fun other found owned => ?_⟩
  have different : other ≠ key := by
    rintro rfl
    exact nomatch unused.symm.trans owned
  exact (Function.update_of_ne different ..).trans owned

theorem State.put_fields {state : State} {tid : Tid} {below : List Activation}
    {call : Activation}
    : (state.put tid below call).specifics = state.specifics
      ∧ (state.put tid below call).key = state.key
      ∧ (state.put tid below call).table = state.table
      ∧ (state.put tid below call).init = state.init := by
  rw [State.put]
  split <;> exact ⟨rfl, rfl, rfl, rfl⟩

/-- A call put in place keeps what holds, if it has its shape and the keys their owners. -/
theorem State.Shape.put {state : State} {tid : Tid} {below : List Activation}
    {call : Activation} {specifics : Specifics} (shape : state.Shape functions)
    (owners : specifics.owner = state.specifics.owner) (called : call.Shape functions)
    (others : state.Others (Activation.Shape functions) tid below)
    (inside : ∀ call ∈ below, call ∈ state.active tid)
    : ({ state with specifics := specifics }.put tid below call).Shape functions := by
  obtain ⟨sameSpecifics, key, table, init⟩ :=
    @State.put_fields { state with specifics := specifics } tid below call
  have ongoing : { state with specifics := specifics }.Ongoing := shape.ongoing
  refine ⟨?_, ?_, ?_, State.all_put.mpr ⟨called, others⟩, ongoing.put inside⟩
  · rw [table]
    exact shape.table
  · rw [init, key, sameSpecifics, owners]
    exact shape.keyed
  · rw [init, key]
    exact shape.early

theorem TableShape.flagged {table : List FType} (shape : TableShape functions table)
    (globals : CString → Bool)
    : TableShape functions (table.map (FType.flagged globals)) where
  lengths := by rw [List.length_map, shape.lengths]
  entries n func found := by
    rw [List.getElem?_map, Option.map_eq_some_iff] at found
    obtain ⟨old, found, rfl⟩ := found
    exact shape.entries n old found

/-- `LabreaInit` fills an entry in. -/
theorem TableShape.set {table : List FType} (shape : TableShape functions table) {n : Nat}
    {func : FType} (found : table[n]? = some func) (offset : BitVec 32)
    : TableShape functions
        (table.set n
          { func with pos := n, offset := offset, orig := some (functions.orig func.name) })
    where
  lengths := by rw [List.length_set, shape.lengths]
  entries m entry entry_found := by
    obtain ⟨define, line, name, arity, _⟩ := shape.entries n func found
    by_cases same : n = m
    · subst same
      rw [List.getElem?_set_self (List.getElem?_eq_some_iff.mp found).1] at entry_found
      cases entry_found
      refine ⟨define, line, name, arity, fun addr filled => ?_⟩
      rw [← name]
      exact (Option.some.inj filled).symm
    · rw [List.getElem?_set_ne same] at entry_found
      exact shape.entries m entry entry_found

/-- No call has been made at the start. -/
theorem State.all_start (property : Activation → Prop) : (State.start functions).All property :=
  ⟨fun _ member => absurd member List.not_mem_nil,
    fun _ _ member => absurd member List.not_mem_nil⟩

theorem State.shape_start : (State.start functions).Shape functions where
  table := {
    lengths := List.length_map _
    entries := fun n func found => by
      rw [State.start, List.getElem?_map, Option.map_eq_some_iff] at found
      obtain ⟨define, line, rfl⟩ := found
      exact ⟨define, line, rfl, rfl, nofun⟩ }
  keyed := nofun
  early _ := rfl
  calls := State.all_start _
  ongoing _ _ member := absurd member List.not_mem_nil

/-- A step of `LabreaInit` keeps what holds, as it sets the key to one it has just created, and
it makes no hooked call.
-/
theorem State.Shape.initialise {state next : State} {fresh : Nat}
    (shape : state.Shape functions)
    (stepped : state.initialise functions main fresh = some next)
    : next.Shape functions
      ∧ next.finished = state.finished
      ∧ next.active = state.active
      ∧ (state.init.keyed → next.init.keyed) := by
  obtain ⟨specifics, key, table, init, active, finished⟩ := state
  obtain ⟨entries, keyed, early, calls, ongoing⟩ := shape
  cases init with
  | before =>
      obtain ⟨after, created, rfl⟩ := Option.map_eq_some_iff.mp stepped
      exact ⟨⟨entries, nofun, fun _ => early rfl, calls, ongoing⟩, rfl, rfl, nofun⟩
  | keys =>
      obtain ⟨after, created, rfl⟩ := Option.map_eq_some_iff.mp stepped
      have owned := (Specifics.createKey_spec created).1
      exact ⟨⟨entries, fun _ => owned, nofun, calls, ongoing⟩, rfl, rfl, fun _ => rfl⟩
  | invocation construct =>
      match found : construct.step key main fresh specifics with
      | (constructed, after) =>
        have owners := (Construct.step_cases found).1
        have owned : after.owner key = some .labrea := by
          rw [owners]
          exact keyed rfl
        simp only [State.initialise, found] at stepped
        cases constructed with
        | aborted => exact nomatch stepped
        | going next | built ready pos =>
            cases stepped
            exact ⟨⟨entries, fun _ => owned, nofun, calls, ongoing⟩, rfl, rfl, fun _ => rfl⟩
  | table ready pos n =>
      match found : table[n]? with
      | none =>
          simp only [State.initialise, found] at stepped
          cases stepped
          exact ⟨⟨entries, fun _ => keyed rfl, nofun, calls, ongoing⟩, rfl, rfl, id⟩
      | some func =>
          simp only [State.initialise, found] at stepped
          obtain ⟨offset, computed, rfl⟩ := Option.map_eq_some_iff.mp stepped
          have filled := entries.set found offset
          exact ⟨⟨filled, fun _ => keyed rfl, nofun, calls, ongoing⟩, rfl, rfl, id⟩
  | scripting ready pos =>
      cases stepped
      refine ⟨⟨entries, fun _ => ?_, nofun, calls, ongoing⟩, rfl, rfl, fun _ => rfl⟩
      cases ready <;> exact keyed rfl
  | done => exact nomatch stepped

/-- Once labrea's key is set a step does no harm under it, and before that it is key 0. -/
theorem State.Shape.fits_iff {state : State} {construct : Construct}
    (shape : state.Shape functions)
    : construct.Fits (state.specifics.owner state.key)
      ↔ state.init.keyed ∨ construct.Fits (state.specifics.owner 0) := by
  match keyed : state.init.keyed with
  | true =>
      rw [shape.keyed keyed]
      refine iff_of_true ?_ (Or.inl rfl)
      cases construct <;> simp [Construct.Fits]
  | false =>
      rw [shape.early keyed]
      simp

/-- A step keeps what holds in every state, and keeps the calls clean exactly if it is timely.
Witness: only a step of a call can touch a key or abort.
-/
theorem State.Shape.step {state next : State} {action : Action}
    (shape : state.Shape functions)
    (stepped : state.step functions main action = some next)
    : next.Shape functions
      ∧ (state.init.keyed → next.init.keyed)
      ∧ (next.All Activation.Clean ↔ state.All Activation.Clean ∧ state.Timely action) := by
  cases action with
  | otherCreates key =>
      obtain ⟨after, created, rfl⟩ := Option.map_eq_some_iff.mp stepped
      refine ⟨⟨shape.table, fun keyed => ?_, shape.early, shape.calls, shape.ongoing⟩, id,
        (and_iff_left trivial).symm⟩
      exact (Specifics.createKey_spec created).2 _ _ (shape.keyed keyed)
  | otherSets tid key pos byte =>
      rw [State.step] at stepped
      split_ifs at stepped with owned
      obtain ⟨after, set, rfl⟩ := Option.map_eq_some_iff.mp stepped
      rw [Specifics.setspecific] at set
      split_ifs at set
      cases set
      exact ⟨⟨shape.table, shape.keyed, shape.early, shape.calls, shape.ongoing⟩, id,
        (and_iff_left trivial).symm⟩
  | initialises fresh =>
      obtain ⟨nextShape, finished, active, keyed⟩ := shape.initialise stepped
      refine ⟨nextShape, keyed, ?_⟩
      rw [State.All, finished, active]
      exact (and_iff_left trivial).symm
  | reinitialises globals =>
      cases stepped
      exact ⟨⟨shape.table.flagged globals, shape.keyed, shape.early, shape.calls, shape.ongoing⟩, id,
        (and_iff_left trivial).symm⟩
  | calls tid n args =>
      match line : functions.defs[n]? with
      | none =>
          simp only [State.step, line] at stepped
          exact nomatch stepped
      | some define =>
          simp only [State.step, line] at stepped
          split_ifs at stepped with may
          cases stepped
          have called
              : Activation.Shape functions
                  ⟨n, define.rv, args, .building .lookup, [], [], []⟩ :=
            ⟨define, line, may.1, rfl, rfl, rfl⟩
          have clean
              : Activation.Clean ⟨n, define.rv, args, .building .lookup, [], [], []⟩ :=
            ⟨nofun, nofun⟩
          refine ⟨shape.put rfl called (State.all_iff.mp shape.calls) fun _ => id, ?_, ?_⟩
          · rw [State.put_fields.2.2.2]
            exact id
          rw [State.all_put, ← State.all_iff]
          exact ⟨fun ⟨_, all⟩ => ⟨all, trivial⟩, fun ⟨all, _⟩ => ⟨clean, all⟩⟩
  | proceeds tid fresh =>
      match calls : state.active tid with
      | [] =>
          simp only [State.step, calls] at stepped
          exact nomatch stepped
      | call :: below =>
          simp only [State.step, calls] at stepped
          obtain ⟨⟨called, after⟩, advanced, rfl⟩ := Option.map_eq_some_iff.mp stepped
          have shapes := (@State.all_iff _ state tid).mp shape.calls
          rw [calls, State.others_cons] at shapes
          obtain ⟨calledShape, owners, clean⟩ :=
            Activation.advance_spec shape.table shapes.1 advanced
          refine ⟨shape.put owners calledShape shapes.2 ?_, ?_, ?_⟩
          · rw [calls]
            exact fun _ => List.mem_cons_of_mem call
          · rw [State.put_fields.2.2.2]
            exact id
          rw [State.all_put, clean, @State.all_iff _ state tid, calls, State.others_cons]
          have timely
              : state.Timely (.proceeds tid fresh)
                ↔ ∀ construct, call.stage = .building construct
                  → construct.Fits (state.specifics.owner state.key) := by
            simp only [State.Timely, calls, List.cons.injEq, shape.fits_iff]
            constructor
            · intro timely construct building
              exact timely call below construct ⟨rfl, rfl⟩ building
            · rintro fits _ _ construct ⟨rfl, rfl⟩ building
              exact fits construct building
          rw [timely]
          exact and_right_comm
  | answers tid word =>
      match calls : state.active tid with
      | [] =>
          simp only [State.step, calls] at stepped
          exact nomatch stepped
      | call :: below =>
          simp only [State.step, calls] at stepped
          obtain ⟨called, answered, rfl⟩ := Option.map_eq_some_iff.mp stepped
          have shapes := (@State.all_iff _ state tid).mp shape.calls
          rw [calls, State.others_cons] at shapes
          obtain ⟨calledShape, clean⟩ := Activation.answer_spec shapes.1 answered
          refine ⟨shape.put rfl calledShape shapes.2 ?_, ?_, ?_⟩
          · rw [calls]
            exact fun _ => List.mem_cons_of_mem call
          · rw [State.put_fields.2.2.2]
            exact id
          rw [State.all_put, clean, @State.all_iff _ state tid, calls, State.others_cons]
          exact (and_iff_left trivial).symm

/-- A call with its shape has its original called at most once, and once before it returns. -/
theorem Activation.Shape.once {call : Activation} (shape : call.Shape functions)
    : call.Once functions := by
  obtain ⟨n, rv, args, stage, touched, originals, answers⟩ := call
  obtain ⟨define, line, types, rfl, quiet⟩ := shape
  refine ⟨define, line, ?_, ?_⟩
  · cases stage with
    | building | built | aborted | hooked => exact quiet.1 ▸ List.nil_prefix
    | running | ending | returned => exact quiet.1 ▸ List.prefix_rfl
  · rintro value rfl
    exact quiet

theorem State.Shape.goesOn {state : State} (shape : state.Shape functions)
    : state.GoesOn functions main := by
  intro tid call below calls alive unhooked fresh word
  have member : call ∈ state.active tid := by
    rw [calls]
    exact List.mem_cons_self
  obtain ⟨define, line, _⟩ := shape.calls.2 tid call member
  simp only [State.step, calls, Option.isSome_map]
  match stage : call.stage with
  | .building construct =>
      rw [Activation.advance, stage]
      exact Or.inl rfl
  | .built ready pos =>
      have bound : call.n < state.table.length := by
        rw [shape.table.lengths]
        exact (List.getElem?_eq_some_iff.mp line).1
      simp only [Activation.advance, stage, List.getElem?_eq_getElem bound]
      exact Or.inl rfl
  | .running ready pos =>
      rw [Activation.answer, stage]
      exact Or.inr rfl
  | .ending ready pos value =>
      rw [Activation.advance, stage]
      exact Or.inl rfl
  | .returned value => exact absurd stage (shape.ongoing tid call member value)
  | .aborted => exact absurd stage alive
  | .hooked => exact absurd stage unhooked

/-- After `initPthreadKeys` every step is timely, by induction on the actions. -/
theorem meets_of_keyed {state : State} (shape : state.Shape functions)
    (keyed : state.init.keyed) (actions : List Action)
    : Meets (State.step functions main) State.Timely state actions := by
  induction actions generalizing state with
  | nil => trivial
  | cons action rest ih =>
      refine ⟨?_, fun next stepped => ?_⟩
      · cases action with
        | proceeds tid fresh => exact fun _ _ _ _ _ => Or.inl keyed
        | _ => trivial
      · obtain ⟨nextShape, stays, _⟩ := shape.step stepped
        exact ih nextShape (stays keyed)

/-- A thread's call of `write` on which the original writes 5 bytes. -/
def writes (tid : Tid) : List Action :=
  [.calls tid 8 [.int 2, .pointer "const void" 8192, .unsignedLong 5], .proceeds tid 64,
    .proceeds tid 64, .proceeds tid 64, .proceeds tid 64, .answers tid (.w64 5),
    .proceeds tid 64]

end Labrea.StartUp
