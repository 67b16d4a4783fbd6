import Labrea.Reinit
import Labrea.TableSequence

/-! The example script `trace.lua`, from the names that start-up records in `available_hooks` to
the hooks that its calls run.
-/

namespace Labrea

open LuaTable (Table TableKey Failure maxasize)
open LuaTable.TableKey (number)

section

variable {Key : Type} [TableKey Key] [DecidableEq Key]

/-- `labrea_record_function` -/
def recordFunction (hooks : Table Key CString) (fname : CString)
    : Except Failure (Table Key CString) :=
  hooks.tinsert fname

/-- `available_hooks`, once `recordFunctions` has gone through the table. -/
def availableHooks (functions : List FType) : Except Failure (Table Key CString) := do
  let hooks ← Table.luaHNew 0 0
  (functions.map FType.name).foldlM recordFunction hooks

/-- `string.format("Entering %s\n", v)` -/
def entering (v : CString) : CString :=
  "Entering ".toList ++ v ++ "\n".toList

/-- `string.format("Leaving %s\n", v)` -/
def leaving (v : CString) : CString :=
  "Leaving ".toList ++ v ++ "\n".toList

/-- The body of the loop of `trace.lua`, given what writing a text to `io.stderr` does. -/
def traceFunction (write : CString → Body) (x : Globals) (v : CString) : Globals :=
  let x := Function.update x ("before_".toList ++ v) (.value (write (entering v)))
  Function.update x ("after_".toList ++ v) (.value (write (leaving v)))

/-- The loop of `trace.lua` after a key, if it ends within the given steps. -/
def traceLoop (write : CString → Body) (hooks : Table Key CString)
    : ℕ → Option Key → Globals → Option (Except Failure Globals)
  | 0, _, _ => none
  | steps + 1, control, x =>
      match hooks.luaHNext control with
      | .error failure => some (.error failure)
      | .ok none => some (.ok x)
      | .ok (some (k, v)) => traceLoop write hooks steps (some k) (traceFunction write x v)

end

variable {Key : Type} [TableKey Key] [DecidableEq Key] {write : CString → Body}

theorem availableHooks_sequence {functions : List FType} (few : functions.length ≤ maxasize)
    : ∃ hooks : Table Key CString,
        availableHooks functions = .ok hooks
        ∧ hooks.Sequence (functions.map FType.name) := by
  obtain ⟨empty, new, sequence⟩
      : ∃ t : Table Key CString, Table.luaHNew 0 0 = .ok t ∧ t.Sequence [] :=
    Table.luaHNew_sequence
  obtain ⟨hooks, recorded, sequence⟩ :=
    sequence.foldlM_tinsert (functions.map FType.name) (by simpa using few)
  refine ⟨hooks, ?_, sequence⟩
  rw [availableHooks, new]
  exact recorded

/-- The loop goes through the names behind the key, by induction on its steps. -/
theorem traceLoop_eq {hooks : Table Key CString} {names : List CString}
    (sequence : hooks.Sequence names) {steps i : ℕ} {control : Option Key} {x : Globals}
    (cursor : hooks.Cursor control i) (enough : names.length < i + steps)
    (le : i ≤ names.length)
    : traceLoop write hooks steps control x
      = some (.ok ((names.drop i).foldl (traceFunction write) x)) := by
  induction steps generalizing i control x with
  | zero => exact absurd le (by omega)
  | succ steps ih =>
      rw [traceLoop, sequence.luaHNext cursor]
      rcases item : names[i]? with _ | v
      · have last : names.length ≤ i := List.getElem?_eq_none_iff.mp item
        rw [List.drop_eq_nil_of_le last]
        rfl
      · obtain ⟨below, rfl⟩ := List.getElem?_eq_some_iff.mp item
        rw [List.drop_eq_getElem_cons below]
        exact ih (sequence.cursor below) (by omega) below

/-- What the loop sets the hooks of a name to. -/
def tracedHook (write : CString → Body) (x : Globals) (name : CString) : HookKind → Global
  | .before => .value (write (entering name))
  | .around => x (hookName .around name)
  | .after => .value (write (leaving name))

/-- One step sets the two hooks of its function. -/
theorem traceFunction_apply (x : Globals) (v : CString) (kind : HookKind) (name : CString)
    : traceFunction write x v (hookName kind name)
      = if name = v then tracedHook write x v kind else x (hookName kind name) := by
  have before : "before_".toList ++ v = hookName .before v := rfl
  have after : "after_".toList ++ v = hookName .after v := rfl
  rw [traceFunction, before, after]
  simp only [Function.update_apply, hookName_inj]
  by_cases here : name = v
  · subst here
    cases kind <;> simp [tracedHook]
  · simp [here]

/-- The loop sets the hooks of all names, by induction on them. -/
theorem foldl_traceFunction (names : List CString) (x : Globals) (kind : HookKind)
    (name : CString)
    : names.foldl (traceFunction write) x (hookName kind name)
      = if name ∈ names then tracedHook write x name kind else x (hookName kind name) := by
  induction names generalizing x with
  | nil => rfl
  | cons v rest ih =>
      have kept : tracedHook write (traceFunction write x v) name kind
          = tracedHook write x name kind := by
        cases kind with
        | before | after => rfl
        | around =>
            rw [tracedHook, tracedHook, traceFunction_apply]
            split_ifs with here
            · rw [tracedHook, here]
            · rfl
      rw [List.foldl_cons, ih, kept, traceFunction_apply]
      by_cases here : name = v
      · subst here
        simp
      · simp [here]

end Labrea
