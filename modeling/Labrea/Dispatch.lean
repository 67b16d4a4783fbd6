import Mathlib.Data.List.Forall2
import Labrea.Library.Memo
import Labrea.FunctionTable
import Labrea.Wrapper

/-! Which table entry a hooked call is resolved to. `wrapper` keeps the entry in a
function-local static, of which there is one for each instantiation, so that functions of one
signature share it.
-/

namespace Labrea

/-- `findFunc`: the position of the first entry of the name; without one it aborts. -/
def findFunc (functions : List FType) (name : CString) : Option Nat :=
  functions.findIdx? fun func => func.name = name

/-- The value of the static `func` in each instantiation of `wrapper`: a pointer into
`functions[]`, here a position.
-/
abbrev Statics := CType × List CType → Option Nat

/-- The table while the hook flags are the given ones. -/
def Functions.withFlags (functions : Functions) (flags : CString → HookFlags) : Functions :=
  { functions with flags := flags }

/-- A call of a hookable function by the application, with the hook flags it meets and what
is outside labrea. The compiler has checked its arguments.
-/
structure AppCall (functions : Functions) where
  define : Define
  declared : define ∈ functions.defs
  args : List CValue
  typed : args.map CValue.type = define.args
  flags : CString → HookFlags
  env : Env

/-- `findFunc` as `wrapper` calls it, with the name of its function. -/
def AppCall.findFunc {functions : Functions} (call : AppCall functions) : Option Nat :=
  Labrea.findFunc (functions.withFlags call.flags).entries call.define.n

/-- `wrapper` resolves its entry from the static of its instantiation, once that is set. -/
def resolveAll (functions : Functions) (statics : Statics)
    (calls : List (AppCall functions))
    : Option (List Nat) :=
  Memo.fetchAll (fun call : AppCall functions => call.define.signature)
    AppCall.findFunc statics calls

/-- A call that consults the entry at a position consults its own: the one of its name, with
the flags of its function, whose original it reaches with its arguments where there is no
around hook.
-/
structure ConsultsOwn {functions : Functions} (call : AppCall functions) (pos : Nat)
    (func : FType)
    : Prop where
  consulted : (functions.withFlags call.flags).entries[pos]? = some func
  name : func.name = call.define.n
  flags : HookFlags.mk func.hasBefore func.hasAround func.hasAfter = call.flags call.define.n
  original
    : func.hasAround = false → ∀ thread,
        (resultOf call.env func call.define.rv call.args thread).trace.head?
          = some (.original .direct (functions.orig call.define.n)
              (call.args.map CValue.word))

theorem Functions.entries_withFlags {functions : Functions} {flags : CString → HookFlags}
    {pos : Nat}
    : (functions.withFlags flags).entries[pos]?
      = functions.defs[pos]?.map ((functions.withFlags flags).entryAt pos) :=
  Functions.entries_getElem?

/-- Two lines of one name are one line. -/
theorem Functions.pos_unique {functions : Functions} {first second : Nat}
    {one two : Define} (atFirst : functions.defs[first]? = some one)
    (atSecond : functions.defs[second]? = some two) (same : one.n = two.n)
    : first = second := by
  have inside := (List.getElem?_eq_some_iff.mp atFirst).1
  refine (List.getElem?_inj (by simpa using inside) functions.distinct).mp ?_
  rw [List.getElem?_map, List.getElem?_map, atFirst, atSecond, Option.map_some,
    Option.map_some, same]

/-- `findFunc` finds a position exactly if the line there has the name. -/
theorem findFunc_eq_some {functions : Functions} {flags : CString → HookFlags}
    {name : CString} {pos : Nat}
    : findFunc (functions.withFlags flags).entries name = some pos
      ↔ ∃ define, functions.defs[pos]? = some define ∧ define.n = name := by
  have named : ∀ n (inside : n < (functions.withFlags flags).entries.length),
      ∃ define, functions.defs[n]? = some define
        ∧ (functions.withFlags flags).entries[n].name = define.n := by
    intro n inside
    have entry := List.getElem?_eq_getElem inside
    rw [Functions.entries_withFlags, Option.map_eq_some_iff] at entry
    obtain ⟨define, line, same⟩ := entry
    exact ⟨define, line, by rw [← same]; rfl⟩
  rw [findFunc, List.findIdx?_eq_some_iff_getElem]
  constructor
  · intro holds
    rcases holds with ⟨inside, matched, _⟩
    obtain ⟨define, line, name⟩ := named pos inside
    exact ⟨define, line, by simpa [name] using matched⟩
  · intro holds
    rcases holds with ⟨define, line, rfl⟩
    have inside : pos < (functions.withFlags flags).entries.length := by
      simpa [Functions.entries, Functions.withFlags] using
        (List.getElem?_eq_some_iff.mp line).1
    obtain ⟨other, found, name⟩ := named pos inside
    obtain rfl := Option.some.inj (line.symm.trans found)
    refine ⟨inside, by simp [name], ?_⟩
    intro earlier before matched
    obtain ⟨other, found, name⟩ := named earlier (Nat.lt_trans before inside)
    have same := Functions.pos_unique found line (by simpa [name] using matched)
    exact absurd same (Nat.ne_of_lt before)

theorem AppCall.findFunc_isSome {functions : Functions} (call : AppCall functions)
    : call.findFunc.isSome := by
  obtain ⟨pos, inside, line⟩ := List.getElem_of_mem call.declared
  rw [Option.isSome_iff_exists]
  exact ⟨pos, findFunc_eq_some.mpr
    ⟨call.define, List.getElem?_eq_some_iff.mpr ⟨inside, line⟩, rfl⟩⟩

/-- Two calls find one entry exactly if they are calls of one name. -/
theorem AppCall.findFunc_eq_iff {functions : Functions} {first second : AppCall functions}
    : first.findFunc = second.findFunc ↔ first.define.n = second.define.n := by
  constructor
  · intro same
    obtain ⟨pos, found⟩ := Option.isSome_iff_exists.mp first.findFunc_isSome
    obtain ⟨one, line, name⟩ := findFunc_eq_some.mp found
    obtain ⟨two, line', name'⟩ := findFunc_eq_some.mp (same.symm.trans found)
    obtain rfl := Option.some.inj (line.symm.trans line')
    exact name.symm.trans name'
  · intro same
    obtain ⟨pos, found⟩ := Option.isSome_iff_exists.mp first.findFunc_isSome
    have found' : second.findFunc = some pos := by
      obtain ⟨define, line, name⟩ := findFunc_eq_some.mp found
      exact findFunc_eq_some.mpr ⟨define, line, name.trans same⟩
    rw [found, found']

/-- The entry that `findFunc` finds is a call's own. -/
theorem AppCall.consultsOwn_iff {functions : Functions} {call : AppCall functions} {pos : Nat}
    : (∃ func, ConsultsOwn call pos func) ↔ call.findFunc = some pos := by
  rw [AppCall.findFunc, findFunc_eq_some]
  constructor
  · intro holds
    rcases holds with ⟨func, own⟩
    obtain ⟨define, line, rfl⟩ := Option.map_eq_some_iff.mp
      (Functions.entries_withFlags.symm.trans own.consulted)
    exact ⟨define, line, own.name⟩
  · intro holds
    rcases holds with ⟨define, line, name⟩
    obtain ⟨mine, inside, atMine⟩ := List.getElem_of_mem call.declared
    have mineLine : functions.defs[mine]? = some call.define :=
      List.getElem?_eq_some_iff.mpr ⟨inside, atMine⟩
    obtain rfl := Functions.pos_unique line mineLine name
    obtain rfl := Option.some.inj (line.symm.trans mineLine)
    refine ⟨(functions.withFlags call.flags).entryAt pos call.define, ?_, rfl, rfl, ?_⟩
    · rw [Functions.entries_withFlags, line, Option.map_some]
    · intro noAround thread
      have arity : call.define.args.length = call.args.length := by
        rw [← call.typed, List.length_map]
      have calls := @invoke_eq call.env .direct
        ((functions.withFlags call.flags).entryAt pos call.define) call.define.rv call.args
        (functions.orig call.define.n) arity rfl
      rw [resultOf, noAround, if_neg (by simp), calls, Traced.Program.emit_bind_run]
      rfl

/-- Each call of a sequence, from the start of the process on, consults its own entry. -/
def AllConsultOwn {functions : Functions} (calls : List (AppCall functions)) : Prop :=
  ∃ positions, resolveAll functions (fun _ => none) calls = some positions
    ∧ List.Forall₂ (fun call pos => ∃ func, ConsultsOwn call pos func) calls positions

/-- For every table and every sequence of calls, each call consults its own entry if and only
if no two of the calls are of different functions with one signature. Witness: a static that
is filled serves all calls of its signature, and the entry it holds has one name.
-/
theorem allConsultOwn_iff (functions : Functions) (calls : List (AppCall functions))
    : AllConsultOwn calls
      ↔ ∀ first ∈ calls, ∀ second ∈ calls,
          first.define.signature = second.define.signature
          → first.define.n = second.define.n := by
  have fetched := @Memo.fetchAll_own_iff _ _ _ _
    (fun call : AppCall functions => call.define.signature) AppCall.findFunc
    (fun _ => none) calls (fun call _ => call.findFunc_isSome)
  have pairwise
      : (calls.Pairwise fun first second =>
          first.define.signature = second.define.signature → first.findFunc = second.findFunc)
        ↔ ∀ first ∈ calls, ∀ second ∈ calls,
          first.define.signature = second.define.signature
          → first.define.n = second.define.n := by
    simp only [AppCall.findFunc_eq_iff]
    constructor
    · intro agree
      exact agree.forall_of_forall_of_flip (fun _ _ _ => rfl)
        (agree.imp fun agrees same => (agrees same.symm).symm)
    · intro agree
      exact List.pairwise_of_forall_mem_list agree
  rw [AllConsultOwn]
  simp only [AppCall.consultsOwn_iff]
  rw [resolveAll, fetched, pairwise]
  simp

/-- The environment of a call whose original returns a word and that meets no hooks. -/
def plainEnv (result : Word) : Env where
  global _ _ := none
  code _ _ := pure result
  dlsym _ := none
  report _ := pure ()
  reread value := value

/-- `bind` or `connect` with a socket, an address and its length. -/
def socketCall (define : Define) (declared : define ∈ callsFunctions.defs)
    (args : define.args = [.int, .pointer "const struct sockaddr", socklenT])
    : AppCall callsFunctions where
  define := define
  declared := declared
  args := [.int 3, .pointer "const struct sockaddr" 8192, .unsignedInt 16]
  typed := args.symm
  flags := callsFunctions.flags
  env := plainEnv (.w32 0)

def bindCall : AppCall callsFunctions :=
  socketCall (callsDefs.get ⟨15, by decide⟩) (List.get_mem _ _) rfl

def connectCall : AppCall callsFunctions :=
  socketCall (callsDefs.get ⟨18, by decide⟩) (List.get_mem _ _) rfl

/-- A program that calls `bind` and then `connect` has both calls resolved to `bind`. -/
theorem bind_connect_share_static
    : ¬ ∀ (functions : Functions) (calls : List (AppCall functions)), AllConsultOwn calls := by
  intro always
  obtain ⟨positions, resolved, own⟩ := always callsFunctions [bindCall, connectCall]
  have bindFound : bindCall.findFunc = some 15 := findFunc_eq_some.mpr ⟨_, rfl, rfl⟩
  have connectFound : connectCall.findFunc = some 18 := findFunc_eq_some.mpr ⟨_, rfl, rfl⟩
  have signature : connectCall.define.signature = bindCall.define.signature := rfl
  have shared : resolveAll callsFunctions (fun _ => none) [bindCall, connectCall]
      = some [15, 15] := by
    simp [resolveAll, Memo.fetchAll, Memo.fetch_eq, bindFound, signature]
  obtain rfl := Option.some.inj (resolved.symm.trans shared)
  obtain ⟨_, connectOwn⟩ := List.forall₂_cons.mp own
  have found := AppCall.consultsOwn_iff.mp (List.forall₂_cons.mp connectOwn).1
  exact absurd (found.symm.trans connectFound) (by decide)

end Labrea
