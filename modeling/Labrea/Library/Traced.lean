import Mathlib.Tactic.Common

/-! Programs as state transformers that record the events they perform.
A run returns or halts, and in both cases the events up to that point remain. A monitor
reads the events in order; its weakest preconditions say that a run never performs an
event the monitor forbids.
-/

namespace Traced

/-- The events of a run, and either what it halted on or its value and last state. -/
structure Outcome (σ ε η α : Type) where
  trace : List ε
  result : Except η (α × σ)

/-- A program over states `σ` that performs events `ε` and may halt on `η`. -/
def Program (σ ε η α : Type) := σ → Outcome σ ε η α

variable {σ ε η μ α β : Type}

namespace Program

def pure (value : α) : Program σ ε η α :=
  fun state => ⟨[], .ok (value, state)⟩

/-- Events of the continuation follow those of the head; a halt skips the continuation. -/
def bind (head : Program σ ε η α) (rest : α → Program σ ε η β) : Program σ ε η β :=
  fun state =>
    match head state with
    | ⟨trace, .error halted⟩ => ⟨trace, .error halted⟩
    | ⟨trace, .ok (value, next)⟩ =>
        ⟨trace ++ (rest value next).trace, (rest value next).result⟩

instance : Monad (Program σ ε η) where
  pure := Program.pure
  bind := Program.bind

def emit (event : ε) : Program σ ε η Unit :=
  fun state => ⟨[event], .ok ((), state)⟩

def get : Program σ ε η σ :=
  fun state => ⟨[], .ok (state, state)⟩

def modify (update : σ → σ) : Program σ ε η Unit :=
  fun state => ⟨[], .ok ((), update state)⟩

def halt (reason : η) : Program σ ε η α :=
  fun _ => ⟨[], .error reason⟩

/-- Runs one program per list element, in order. -/
def each (body : α → Program σ ε η Unit) : List α → Program σ ε η Unit
  | [] => pure ()
  | item :: rest => bind (body item) (fun _ => each body rest)

@[simp] theorem pure_run (value : α) (state : σ)
    : (Pure.pure value : Program σ ε η α) state = ⟨[], .ok (value, state)⟩ := rfl

@[simp] theorem emit_run (event : ε) (state : σ)
    : (emit event : Program σ ε η Unit) state = ⟨[event], .ok ((), state)⟩ := rfl

@[simp] theorem get_run (state : σ)
    : (get : Program σ ε η σ) state = ⟨[], .ok (state, state)⟩ := rfl

@[simp] theorem modify_run (update : σ → σ) (state : σ)
    : (modify update : Program σ ε η Unit) state = ⟨[], .ok ((), update state)⟩ := rfl

@[simp] theorem halt_run (reason : η) (state : σ)
    : (halt reason : Program σ ε η α) state = ⟨[], .error reason⟩ := rfl

/-- A halted head is the outcome of the whole sequence. -/
theorem bind_of_error {head : Program σ ε η α} {state : σ} {trace : List ε} {reason : η}
    (halted : head state = ⟨trace, .error reason⟩) (rest : α → Program σ ε η β)
    : (head >>= rest) state = ⟨trace, .error reason⟩ := by
  change Program.bind head rest state = _
  simp only [Program.bind, halted]

/-- A returned head hands its value and state to the continuation. -/
theorem bind_of_ok {head : Program σ ε η α} {state next : σ} {trace : List ε} {value : α}
    (returned : head state = ⟨trace, .ok (value, next)⟩) (rest : α → Program σ ε η β)
    : (head >>= rest) state
      = ⟨trace ++ (rest value next).trace, (rest value next).result⟩ := by
  change Program.bind head rest state = _
  simp only [Program.bind, returned]

/-- An event comes before those of its continuation. -/
theorem emit_bind_run (event : ε) (rest : Unit → Program σ ε η β) (state : σ)
    : (emit event >>= rest) state
      = ⟨event :: (rest () state).trace, (rest () state).result⟩ :=
  bind_of_ok (emit_run event state) rest

@[simp] theorem each_nil (body : α → Program σ ε η Unit)
    : each body [] = Pure.pure () := rfl

@[simp] theorem each_cons (body : α → Program σ ε η Unit) (item : α) (rest : List α)
    : each body (item :: rest) = (body item >>= fun _ => each body rest) := rfl

/-- A loop that performs one event per element, by induction on the list. -/
theorem each_emit_run (event : ε) (items : List α) (state : σ)
    : (each (fun _ => emit event) items : Program σ ε η Unit) state
      = ⟨items.map fun _ => event, .ok ((), state)⟩ := by
  induction items with
  | nil => rfl
  | cons item rest ih =>
      rw [each_cons, emit_bind_run, ih]
      rfl

end Program

/-- A safety monitor: its view of a run advances with each event, it forbids some events
in some views, and it says in which views a run may halt.
-/
structure Monitor (ε η μ : Type) where
  next : μ → ε → μ
  allows : μ → ε → Prop
  mayHalt : μ → η → Prop

namespace Monitor

variable (monitor : Monitor ε η μ)

/-- The view after a whole trace. -/
def after (view : μ) (trace : List ε) : μ :=
  trace.foldl monitor.next view

/-- Every event of the trace is allowed in the view of the events before it. -/
def Accepts : μ → List ε → Prop
  | _, [] => True
  | view, event :: rest => monitor.allows view event ∧ Accepts (monitor.next view event) rest

@[simp] theorem after_nil (view : μ) : monitor.after view [] = view := rfl

@[simp] theorem after_cons (view : μ) (event : ε) (rest : List ε)
    : monitor.after view (event :: rest) = monitor.after (monitor.next view event) rest :=
  rfl

@[simp] theorem after_append (view : μ) (first second : List ε)
    : monitor.after view (first ++ second)
      = monitor.after (monitor.after view first) second :=
  List.foldl_append

@[simp] theorem accepts_nil (view : μ) : monitor.Accepts view [] := trivial

@[simp] theorem accepts_cons (view : μ) (event : ε) (rest : List ε)
    : monitor.Accepts view (event :: rest)
      ↔ monitor.allows view event ∧ monitor.Accepts (monitor.next view event) rest :=
  Iff.rfl

/-- A concatenation is accepted piece by piece, by induction on the first piece. -/
theorem accepts_append (view : μ) (first second : List ε)
    : monitor.Accepts view (first ++ second)
      ↔ monitor.Accepts view first ∧ monitor.Accepts (monitor.after view first) second := by
  induction first generalizing view with
  | nil => simp
  | cons event rest ih => simp [ih, and_assoc]

-----------------------------------------------------------------------------------------
-- Weakest preconditions of programs under a monitor
-----------------------------------------------------------------------------------------

/-- The run from `state` is accepted from `view`; if it returns, `post` holds of its value,
last state and last view, and if it halts, the monitor lets it halt there.
-/
def WP (program : Program σ ε η α) (post : α → σ → μ → Prop) (state : σ) (view : μ)
    : Prop :=
  monitor.Accepts view (program state).trace
  ∧ match (program state).result with
    | .ok (value, next) => post value next (monitor.after view (program state).trace)
    | .error reason => monitor.mayHalt (monitor.after view (program state).trace) reason

variable {monitor}

theorem wp_pure {value : α} {post : α → σ → μ → Prop} {state : σ} {view : μ}
    (holds : post value state view)
    : monitor.WP (Pure.pure value) post state view :=
  ⟨trivial, holds⟩

theorem wp_get {post : σ → σ → μ → Prop} {state : σ} {view : μ}
    (holds : post state state view)
    : monitor.WP Program.get post state view :=
  ⟨trivial, holds⟩

theorem wp_modify {update : σ → σ} {post : Unit → σ → μ → Prop} {state : σ} {view : μ}
    (holds : post () (update state) view)
    : monitor.WP (Program.modify update) post state view :=
  ⟨trivial, holds⟩

theorem wp_emit {event : ε} {post : Unit → σ → μ → Prop} {state : σ} {view : μ}
    (allowed : monitor.allows view event) (holds : post () state (monitor.next view event))
    : monitor.WP (Program.emit event) post state view :=
  ⟨⟨allowed, trivial⟩, holds⟩

theorem wp_halt {reason : η} {post : α → σ → μ → Prop} {state : σ} {view : μ}
    (may : monitor.mayHalt view reason)
    : monitor.WP (Program.halt reason) post state view :=
  ⟨trivial, may⟩

/-- A run known in full. -/
theorem wp_of_ok {program : Program σ ε η α} {post : α → σ → μ → Prop} {state next : σ}
    {view : μ} {trace : List ε} {value : α}
    (returned : program state = ⟨trace, .ok (value, next)⟩)
    (accepted : monitor.Accepts view trace) (holds : post value next (monitor.after view trace))
    : monitor.WP program post state view := by
  rw [WP, returned]
  exact ⟨accepted, holds⟩

theorem wp_ite {c : Prop} [Decidable c] {yes no : Program σ ε η α}
    {post : α → σ → μ → Prop} {state : σ} {view : μ}
    (whenYes : c → monitor.WP yes post state view)
    (whenNo : ¬ c → monitor.WP no post state view)
    : monitor.WP (if c then yes else no) post state view := by
  by_cases holds : c
  · rw [if_pos holds]
    exact whenYes holds
  · rw [if_neg holds]
    exact whenNo holds

/-- Sequencing: the continuation's precondition is the head's postcondition. -/
theorem wp_bind {head : Program σ ε η α} {rest : α → Program σ ε η β}
    {post : β → σ → μ → Prop} {state : σ} {view : μ}
    (first : monitor.WP head (fun value => monitor.WP (rest value) post) state view)
    : monitor.WP (head >>= rest) post state view := by
  obtain ⟨accepted, later⟩ := first
  match run : head state with
  | ⟨trace, .error reason⟩ =>
      rw [run] at accepted later
      rw [WP, Program.bind_of_error run rest]
      exact ⟨accepted, later⟩
  | ⟨trace, .ok (value, next)⟩ =>
      rw [run] at accepted later
      obtain ⟨restAccepted, restHolds⟩ := later
      rw [WP, Program.bind_of_ok run rest]
      refine ⟨(monitor.accepts_append _ _ _).mpr ⟨accepted, restAccepted⟩, ?_⟩
      simpa only [after_append] using restHolds

/-- Consequence: a weaker postcondition has a weaker precondition. -/
theorem WP.mono {program : Program σ ε η α} {post weaker : α → σ → μ → Prop}
    {state : σ} {view : μ}
    (holds : monitor.WP program post state view)
    (weaken : ∀ value next last, post value next last → weaker value next last)
    : monitor.WP program weaker state view := by
  obtain ⟨accepted, later⟩ := holds
  refine ⟨accepted, ?_⟩
  match run : (program state).result with
  | .error reason => simpa only [run] using later
  | .ok (value, next) =>
      rw [run] at later
      exact weaken _ _ _ later

/-- A loop over a list keeps an invariant that each of its bodies keeps. -/
theorem wp_each {body : α → Program σ ε η Unit} {inv : σ → μ → Prop}
    (items : List α)
    (keeps : ∀ item ∈ items, ∀ state view,
      inv state view → monitor.WP (body item) (fun _ => inv) state view)
    {state : σ} {view : μ} (start : inv state view)
    : monitor.WP (Program.each body items) (fun _ => inv) state view := by
  induction items generalizing state view with
  | nil => exact wp_pure start
  | cons item rest ih =>
      refine wp_bind ((keeps item (by simp) state view start).mono ?_)
      intro _ next last held
      exact ih (fun later member => keeps later (List.mem_cons_of_mem item member)) held

end Monitor
end Traced
