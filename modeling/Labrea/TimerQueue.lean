import Mathlib.Data.Multiset.AddSub
import Mathlib.Order.Lattice
import Labrea.Library.Machine
import Labrea.Library.Traversal

/-! The timer functions of `init.lua`: `labrea.schedule`, `labrea.periodic`, and
`labrea_periodic`, which the timer thread calls once a second.
-/

namespace Labrea.TimerQueue

open Traversal (Continues)

/-- What user code asks for: `labrea.schedule(t, f)` or `labrea.periodic(period, f)`. -/
inductive Request (Num F : Type) where
  | schedule (t : Num) (f : F)
  | periodic (period : Num) (f : F)
  deriving DecidableEq, Repr

/-- A function in the queue: one of the user's, or the closure `labrea.periodic` makes. -/
inductive Callback (Num F : Type) where
  | plain (f : F)
  | periodic (period : Num) (f : F)
  deriving DecidableEq, Repr

variable {Num F : Type}

def Request.delay : Request Num F → Num
  | .schedule t _ => t
  | .periodic period _ => period

def Request.callback : Request Num F → Callback Num F
  | .schedule _ f => .plain f
  | .periodic period f => .periodic period f

/-- A function in the queue; `id` numbers the calls of `labrea.schedule`, and `origin` is the
number of the one that the request of the user made.
-/
structure Entry (Num F : Type) where
  id : Nat
  origin : Nat
  callback : Callback Num F
  deriving DecidableEq, Repr

/-- Where `labrea_periodic` is: outside, in its outer loop with the keys it has left, or in its
inner loop at a key with the functions it has left.
-/
inductive Phase (Num F : Type) where
  | idle
  | outer (todo : List Num)
  | inner (todo : List Num) (key : Num) (funs : List (Entry Num F))
  deriving DecidableEq, Repr

/-- `periodic_queue` as the list of its functions under their keys, `current_timestamp`, and
where `labrea_periodic` is. The other fields are a record of what has happened: ticks begun,
calls of `labrea.schedule`, requests of user code with the timestamp of each, functions due in
the last tick, and functions called.
-/
structure State (Num F : Type) where
  queue : List (Num × Entry Num F)
  now : Num
  phase : Phase Num F
  ticks : Nat
  issued : Nat
  registered : List (Nat × Num × Request Num F)
  due : List (Entry Num F)
  log : List (Num × Entry Num F)

/-- What happens outside a tick (user code makes a request, a tick begins) and in one: a key is
visited, a function is called, a key is cleared, the tick ends. A call carries the place of
its function, the requests made before it ends, whether it returns, and what the traversals
have left after it.
-/
inductive Action (Num F : Type) where
  | request (request : Request Num F)
  | tick (t : Num)
  | visit (key : Num)
  | call (place : Nat) (made : List (Request Num F)) (returns : Bool) (todo : List Num)
    (funs : List (Entry Num F))
  | clear
  | finish

-----------------------------------------------------------------------------------------
-- init.lua
-----------------------------------------------------------------------------------------

section

variable [Add Num]

/-- `labrea.schedule` -/
def State.schedule (state : State Num F) (t : Num) (callback : Callback Num F) (origin : Nat)
    : State Num F :=
  { state with
    queue := state.queue ++ [(t + state.now, ⟨state.issued, origin, callback⟩)]
    issued := state.issued + 1 }

/-- `labrea.periodic` -/
def State.periodic (state : State Num F) (period : Num) (f : F) (origin : Nat) : State Num F :=
  state.schedule period (.periodic period f) origin

/-- User code makes a request. -/
def State.request (state : State Num F) (request : Request Num F) : State Num F :=
  let requested :=
    match request with
    | .schedule t f => state.schedule t (.plain f) state.issued
    | .periodic period f => state.periodic period f state.issued
  { requested with
    registered := state.registered ++ [(state.issued, state.now, request)] }

/-- A function of the queue is called, with the requests made before it ends. The closure of
`labrea.periodic` calls `labrea.periodic` again if the user's function returned.
-/
def State.call (state : State Num F) (entry : Entry Num F) (made : List (Request Num F))
    (returns : Bool) : State Num F :=
  let called := { state with log := state.log ++ [(state.now, entry)] }
  let requested := made.foldl State.request called
  match returns, entry.callback with
  | true, .periodic period f => requested.periodic period f entry.origin
  | _, _ => requested

end

section

variable [LinearOrder Num]

/-- The keys of `periodic_queue`. -/
def State.keys (state : State Num F) : List Num :=
  (state.queue.map Prod.fst).dedup

/-- The functions under a key. -/
def State.funs (state : State Num F) (key : Num) : List (Entry Num F) :=
  (state.queue.filter fun (k, _) => k = key).map Prod.snd

/-- Keys that a later state has and this one does not. -/
def State.newKeys (state later : State Num F) : List Num :=
  later.keys.filter fun key => key ∉ state.keys

/-- Functions that a later state has under a key after those of this one. -/
def State.newFuns (state later : State Num F) (key : Num) : List (Entry Num F) :=
  (later.funs key).drop (state.funs key).length

/-- Functions that a later state has after those of this one and that are due. -/
def State.newDue (state later : State Num F) : List (Entry Num F) :=
  ((later.queue.drop state.queue.length).filter fun (k, _) => state.now ≥ k).map Prod.snd

variable [Add Num] [DecidableEq F]

/-- `labrea_periodic`, step by step, and what user code does outside it. An error in a function
leaves both loops for `timerLoop`, which catches it.
-/
def State.step (state : State Num F) : Action Num F → Option (State Num F)
  | .request request =>
      match state.phase with
      | .idle => some (state.request request)
      | _ => none
  | .tick t =>
      match state.phase with
      | .idle =>
          some { state with
            now := t
            phase := .outer state.keys
            ticks := state.ticks + 1
            due := (state.queue.filter fun (k, _) => t ≥ k).map Prod.snd }
      | _ => none
  | .visit key =>
      match state.phase with
      | .outer todo =>
          if key ∈ todo then
            if key ∈ state.keys ∧ state.now ≥ key then
              some { state with phase := .inner (todo.erase key) key (state.funs key) }
            else
              some { state with phase := .outer (todo.erase key) }
          else
            none
      | _ => none
  | .call place made returns todo funs =>
      match state.phase with
      | .inner left key remaining =>
          match remaining[place]? with
          | none => none
          | some entry =>
              let later := state.call entry made returns
              let due := state.due ++ state.newDue later
              if returns then
                if Continues left (state.newKeys later) todo
                    ∧ Continues (remaining.eraseIdx place) (state.newFuns later key) funs then
                  some { later with phase := .inner todo key funs, due := due }
                else
                  none
              else
                some { later with phase := .idle, due := due }
      | _ => none
  | .clear =>
      match state.phase with
      | .inner todo key [] =>
          some { state with
            queue := state.queue.filter fun (k, _) => k ≠ key
            phase := .outer todo }
      | _ => none
  | .finish =>
      match state.phase with
      | .outer [] => some { state with phase := .idle }
      | _ => none

end

/-- A state outside any tick with the given content of `periodic_queue`. -/
def State.holding (content : List (Num × Callback Num F)) (now : Num) : State Num F where
  queue := content.zipIdx.map fun ((key, callback), id) => (key, ⟨id, id, callback⟩)
  now := now
  phase := .idle
  ticks := 0
  issued := content.length
  registered := []
  due := []
  log := []

section

variable [LinearOrder Num]

theorem State.mem_keys {state : State Num F} {key : Num}
    : key ∈ state.keys ↔ ∃ entry, (key, entry) ∈ state.queue := by
  simp [State.keys]

theorem State.mem_funs {state : State Num F} {key : Num} {entry : Entry Num F}
    : entry ∈ state.funs key ↔ (key, entry) ∈ state.queue := by
  simp [State.funs]

end

section

variable [Add Num]

/-- The entries of requests made at one time, from a number of `labrea.schedule` on. -/
def requestEntries (now : Num) (issued : Nat) (made : List (Request Num F))
    : List (Num × Entry Num F) :=
  (made.zipIdx issued).map fun (request, id) =>
    (request.delay + now, ⟨id, id, request.callback⟩)

/-- The record of requests made at one time. -/
def requestRecords (now : Num) (issued : Nat) (made : List (Request Num F))
    : List (Nat × Num × Request Num F) :=
  (made.zipIdx issued).map fun (request, id) => (id, now, request)

/-- The entry that the closure of `labrea.periodic` makes of itself when it returns. -/
def Entry.renewal (now : Num) (issued : Nat) (returns : Bool) (entry : Entry Num F)
    : List (Num × Entry Num F) :=
  match returns, entry.callback with
  | true, .periodic period f => [(period + now, ⟨issued, entry.origin, .periodic period f⟩)]
  | _, _ => []

/-- A closure that renews itself is numbered next, and keeps its origin. -/
theorem Entry.renewal_cases (now : Num) (issued : Nat) (returns : Bool) (entry : Entry Num F)
    : entry.renewal now issued returns = []
      ∨ ∃ period f,
          entry.callback = .periodic period f
          ∧ returns
          ∧ entry.renewal now issued returns
            = [(period + now, ⟨issued, entry.origin, .periodic period f⟩)] := by
  obtain ⟨id, origin, callback⟩ := entry
  cases returns <;> cases callback <;> simp [Entry.renewal]

/-- What a call adds to the queue. -/
def State.additions (state : State Num F) (entry : Entry Num F) (made : List (Request Num F))
    (returns : Bool) : List (Num × Entry Num F) :=
  requestEntries state.now state.issued made
    ++ entry.renewal state.now (state.issued + made.length) returns

theorem State.request_eq (state : State Num F) (request : Request Num F)
    : state.request request
      = { state with
        queue := state.queue
          ++ [(request.delay + state.now, ⟨state.issued, state.issued, request.callback⟩)]
        issued := state.issued + 1
        registered := state.registered ++ [(state.issued, state.now, request)] } := by
  cases request <;> rfl

/-- Requests are numbered in their order, by induction on them. -/
theorem State.requests_eq (state : State Num F) (made : List (Request Num F))
    : made.foldl State.request state
      = { state with
        queue := state.queue ++ requestEntries state.now state.issued made
        issued := state.issued + made.length
        registered := state.registered ++ requestRecords state.now state.issued made } := by
  induction made generalizing state with
  | nil => simp [requestEntries, requestRecords]
  | cons request rest ih =>
      rw [List.foldl_cons, ih, State.request_eq]
      simp [requestEntries, requestRecords, Nat.add_assoc, Nat.add_comm 1]

/-- A call adds its entries, and is recorded. -/
theorem State.call_eq (state : State Num F) (entry : Entry Num F)
    (made : List (Request Num F)) (returns : Bool)
    : state.call entry made returns
      = { state with
        queue := state.queue ++ state.additions entry made returns
        issued := state.issued + (state.additions entry made returns).length
        registered := state.registered ++ requestRecords state.now state.issued made
        log := state.log ++ [(state.now, entry)] } := by
  obtain ⟨id, origin, callback⟩ := entry
  cases returns <;> cases callback <;>
    simp [State.call, State.requests_eq, State.additions, Entry.renewal, requestEntries,
      State.periodic, State.schedule, Nat.add_assoc]

variable [LinearOrder Num]

/-- The new keys are those of the additions that are not keys already. -/
theorem State.mem_newKeys_call {state : State Num F} {entry : Entry Num F}
    {made : List (Request Num F)} {returns : Bool} {key : Num}
    : key ∈ state.newKeys (state.call entry made returns)
      ↔ key ∉ state.keys ∧ ∃ new, (key, new) ∈ state.additions entry made returns := by
  rw [State.newKeys, State.call_eq]
  simp only [List.mem_filter, State.mem_keys, List.mem_append, decide_eq_true_eq]
  grind

theorem State.newFuns_call (state : State Num F) (entry : Entry Num F)
    (made : List (Request Num F)) (returns : Bool) (key : Num)
    : state.newFuns (state.call entry made returns) key
      = ((state.additions entry made returns).filter fun (k, _) => k = key).map Prod.snd := by
  rw [State.newFuns, State.call_eq]
  simp [State.funs]

theorem State.newDue_call (state : State Num F) (entry : Entry Num F)
    (made : List (Request Num F)) (returns : Bool)
    : state.newDue (state.call entry made returns)
      = ((state.additions entry made returns).filter fun (k, _) => state.now ≥ k).map
        Prod.snd := by
  rw [State.newDue, State.call_eq]
  simp

end

-----------------------------------------------------------------------------------------
-- Everything a step can be
-----------------------------------------------------------------------------------------

section

variable [LinearOrder Num] [Add Num] [DecidableEq F] {state next : State Num F}

theorem State.step_tick {t : Num} (stepped : state.step (.tick t) = some next)
    : state.phase = .idle
      ∧ next = { state with
        now := t
        phase := .outer state.keys
        ticks := state.ticks + 1
        due := (state.queue.filter fun (k, _) => t ≥ k).map Prod.snd } := by
  rw [State.step] at stepped
  split at stepped
  case h_1 idle => exact ⟨idle, (Option.some.inj stepped).symm⟩
  case h_2 => exact nomatch stepped

theorem State.step_request {request : Request Num F}
    (stepped : state.step (.request request) = some next)
    : state.phase = .idle ∧ next = state.request request := by
  rw [State.step] at stepped
  split at stepped
  case h_1 idle => exact ⟨idle, (Option.some.inj stepped).symm⟩
  case h_2 => exact nomatch stepped

/-- A visit enters the inner loop at a key that is due and still there. -/
theorem State.step_visit {key : Num} (stepped : state.step (.visit key) = some next)
    : ∃ todo,
        state.phase = .outer todo
        ∧ key ∈ todo
        ∧ ((key ∈ state.keys ∧ key ≤ state.now
            ∧ next = { state with phase := .inner (todo.erase key) key (state.funs key) })
          ∨ ((key ∈ state.keys → state.now < key)
            ∧ next = { state with phase := .outer (todo.erase key) })) := by
  rw [State.step] at stepped
  split at stepped
  case h_2 => exact nomatch stepped
  case h_1 todo outer =>
    split_ifs at stepped with left visited
    · exact ⟨todo, outer, left, Or.inl ⟨visited.1, visited.2, (Option.some.inj stepped).symm⟩⟩
    · refine ⟨todo, outer, left, Or.inr ⟨fun present => ?_, (Option.some.inj stepped).symm⟩⟩
      exact not_le.mp fun due => visited ⟨present, due⟩

/-- A call that returns goes on with the inner loop, and one that raises leaves the tick. -/
theorem State.step_call {place : Nat} {made : List (Request Num F)} {returns : Bool}
    {todo : List Num} {funs : List (Entry Num F)}
    (stepped : state.step (.call place made returns todo funs) = some next)
    : ∃ left key remaining entry,
        state.phase = .inner left key remaining
        ∧ remaining[place]? = some entry
        ∧ ((returns
            ∧ Continues left (state.newKeys (state.call entry made returns)) todo
            ∧ Continues (remaining.eraseIdx place)
                (state.newFuns (state.call entry made returns) key) funs
            ∧ next = { state.call entry made returns with
              phase := .inner todo key funs
              due := state.due ++ state.newDue (state.call entry made returns) })
          ∨ (returns = false
            ∧ next = { state.call entry made returns with
              phase := .idle
              due := state.due ++ state.newDue (state.call entry made returns) })) := by
  rw [State.step] at stepped
  split at stepped
  case h_2 => exact nomatch stepped
  case h_1 left key remaining inner =>
    split at stepped
    case h_1 => exact nomatch stepped
    case h_2 entry found =>
      refine ⟨left, key, remaining, entry, inner, found, ?_⟩
      cases returns with
      | true =>
          rw [if_pos rfl] at stepped
          split_ifs at stepped with goes
          exact Or.inl ⟨rfl, goes.1, goes.2, (Option.some.inj stepped).symm⟩
      | false =>
          rw [if_neg (by simp)] at stepped
          exact Or.inr ⟨rfl, (Option.some.inj stepped).symm⟩

theorem State.step_clear (stepped : state.step .clear = some next)
    : ∃ todo key,
        state.phase = .inner todo key []
        ∧ next = { state with
          queue := state.queue.filter fun (k, _) => k ≠ key
          phase := .outer todo } := by
  rw [State.step] at stepped
  split at stepped
  case h_1 todo key inner => exact ⟨todo, key, inner, (Option.some.inj stepped).symm⟩
  case h_2 => exact nomatch stepped

theorem State.step_finish (stepped : state.step .finish = some next)
    : state.phase = .outer [] ∧ next = { state with phase := .idle } := by
  rw [State.step] at stepped
  split at stepped
  case h_1 outer => exact ⟨outer, (Option.some.inj stepped).symm⟩
  case h_2 => exact nomatch stepped

end

end Labrea.TimerQueue
