import Mathlib.Logic.Function.Basic
import Mathlib.Tactic.Common

/-! Ranges of a flat memory as lists: reading a range, storing a list, and what a store leaves
as it was.
-/

namespace Slice

variable {β : Type}

/-- The values at `length` successive addresses. -/
def slice (mem : Nat → β) : Nat → Nat → List β
  | _, 0 => []
  | start, length + 1 => mem start :: slice mem (start + 1) length

/-- Stores the values at successive addresses. -/
def store (mem : Nat → β) : Nat → List β → Nat → β
  | _, [] => mem
  | start, value :: rest => store (Function.update mem start value) (start + 1) rest

/-- A list with others in place of its values from `offset` on. -/
def overwrite (values : List β) (offset : Nat) (others : List β) : List β :=
  values.take offset ++ others ++ values.drop (offset + others.length)

variable {mem other : Nat → β}

@[simp] theorem slice_length (mem : Nat → β) (start length : Nat)
    : (slice mem start length).length = length := by
  induction length generalizing start with
  | zero => rfl
  | succ length ih => rw [slice, List.length_cons, ih]

/-- Memories that agree on a range have the same slice there. -/
theorem slice_congr {start length : Nat}
    (same : ∀ addr, start ≤ addr → addr < start + length → mem addr = other addr)
    : slice mem start length = slice other start length := by
  induction length generalizing start with
  | zero => rfl
  | succ length ih =>
      rw [slice, slice, same start (by omega) (by omega)]
      rw [ih fun addr lower upper => same addr (by omega) (by omega)]

/-- Slices of a range in two parts. -/
theorem slice_append (mem : Nat → β) (start first second : Nat)
    : slice mem start (first + second)
      = slice mem start first ++ slice mem (start + first) second := by
  induction first generalizing start with
  | zero => simp [slice]
  | succ first ih =>
      have later : start + 1 + first = start + (first + 1) := by omega
      have longer : first + 1 + second = first + second + 1 := by omega
      rw [longer, slice, slice, ih, later, List.cons_append]

/-- A store changes no address outside of its range. -/
theorem store_outside {start addr : Nat} {values : List β}
    (outside : addr < start ∨ start + values.length ≤ addr)
    : store mem start values addr = mem addr := by
  induction values generalizing mem start with
  | nil => rfl
  | cons value rest ih =>
      rw [List.length_cons] at outside
      rw [store, ih (by omega), Function.update_of_ne (by omega)]

/-- What was stored is read back. -/
@[simp] theorem slice_store (mem : Nat → β) (start : Nat) (values : List β)
    : slice (store mem start values) start values.length = values := by
  induction values generalizing mem start with
  | nil => rfl
  | cons value rest ih =>
      rw [store, List.length_cons, slice, ih, store_outside (Or.inl (by omega)),
        Function.update_self]

/-- A slice apart from the stored range is unchanged. -/
theorem slice_store_apart {start first length : Nat} {values : List β}
    (apart : first + length ≤ start ∨ start + values.length ≤ first)
    : slice (store mem start values) first length = slice mem first length :=
  slice_congr fun _ _ _ => store_outside (by omega)

/-- A store inside of a range overwrites its slice. Witness: the slice falls into the parts
before, at and after the stored range.
-/
theorem slice_store_inside {start offset length : Nat} {values : List β}
    (inside : offset + values.length ≤ length)
    : slice (store mem (start + offset) values) start length
      = overwrite (slice mem start length) offset values := by
  obtain ⟨rest, rfl⟩ := Nat.exists_eq_add_of_le inside
  have parts (memory : Nat → β)
      : slice memory start (offset + values.length + rest)
        = slice memory start offset ++ slice memory (start + offset) values.length
          ++ slice memory (start + (offset + values.length)) rest := by
    rw [slice_append, slice_append]
  have before
      : (slice mem start (offset + values.length + rest)).take offset
        = slice mem start offset := by
    rw [parts, List.append_assoc, List.take_left' (slice_length _ _ _)]
  have after
      : (slice mem start (offset + values.length + rest)).drop (offset + values.length)
        = slice mem (start + (offset + values.length)) rest := by
    rw [parts, List.drop_left' (by simp)]
  rw [overwrite, before, after, parts, slice_store, slice_store_apart (Or.inl (by omega)),
    slice_store_apart (Or.inr (by omega))]

end Slice
