import Labrea.Library.Traced

/-! Partial facts about programs: what every value they return has in common, and how their
traces begin, and where they run a program they are given.
-/

namespace Traced.Program

variable {σ ε η α β : Type}

/-- A sequence that returns has run its head and then its continuation. -/
theorem bind_returned {head : Program σ ε η α} {rest : α → Program σ ε η β} {state next : σ}
    {value : β} (returned : ((head >>= rest) state).result = .ok (value, next))
    : ∃ found between,
        (head state).result = .ok (found, between)
        ∧ (rest found between).result = .ok (value, next)
        ∧ ((head >>= rest) state).trace = (head state).trace ++ (rest found between).trace := by
  cases run : head state with
  | mk trace result =>
      cases result with
      | error reason =>
          rw [bind_of_error run] at returned
          cases returned
      | ok pair =>
          rw [bind_of_ok run] at returned
          exact ⟨pair.1, pair.2, rfl, returned, congrArg Outcome.trace (bind_of_ok run rest)⟩

/-- A sequence returns exactly where its head and then its continuation do. -/
theorem bind_returns_iff {head : Program σ ε η α} {rest : α → Program σ ε η β} {state next : σ}
    {value : β}
    : ((head >>= rest) state).result = .ok (value, next)
      ↔ ∃ found between,
          (head state).result = .ok (found, between)
          ∧ (rest found between).result = .ok (value, next) := by
  constructor
  · intro returned
    obtain ⟨found, between, ran, continued, _⟩ := bind_returned returned
    exact ⟨found, between, ran, continued⟩
  · rintro ⟨found, between, ran, continued⟩
    cases run : head state with
    | mk trace result =>
        rw [run] at ran
        cases ran
        rw [bind_of_ok run]
        exact continued

/-- Every value the program returns is one of `good`. -/
def Yields (program : Program σ ε η α) (good : α → Prop) : Prop :=
  ∀ state value next, (program state).result = .ok (value, next) → good value

theorem yields_pure {value : α} {good : α → Prop} (holds : good value)
    : Yields (Pure.pure value : Program σ ε η α) good := by
  intro state found next returned
  cases returned
  exact holds

theorem yields_halt {reason : η} {good : α → Prop}
    : Yields (halt reason : Program σ ε η α) good :=
  fun _ _ _ returned => nomatch returned

/-- A sequence returns what its continuation returns on a value of the head. -/
theorem yields_bind {head : Program σ ε η α} {rest : α → Program σ ε η β}
    {middle : α → Prop} {good : β → Prop} (first : Yields head middle)
    (later : ∀ value, middle value → Yields (rest value) good)
    : Yields (head >>= rest) good := by
  intro state value next returned
  obtain ⟨found, between, ran, continued, _⟩ := bind_returned returned
  exact later found (first state found between ran) between value next continued

/-- Whatever the head returns, the continuation returns good values. -/
theorem yields_after {head : Program σ ε η α} {rest : α → Program σ ε η β}
    {good : β → Prop} (later : ∀ value, Yields (rest value) good)
    : Yields (head >>= rest) good :=
  yields_bind (fun _ _ _ _ => trivial) fun value _ => later value

/-- A program that leaves the state as it was, where it returns. -/
def ReadOnly (program : Program σ ε η α) : Prop :=
  ∀ state value next, (program state).result = .ok (value, next) → next = state

theorem readOnly_pure {value : α} : ReadOnly (Pure.pure value : Program σ ε η α) := by
  intro state found next returned
  cases returned
  rfl

theorem readOnly_emit {event : ε} : ReadOnly (emit event : Program σ ε η Unit) := by
  intro state found next returned
  cases returned
  rfl

theorem readOnly_get : ReadOnly (get : Program σ ε η σ) := by
  intro state found next returned
  cases returned
  rfl

theorem readOnly_halt {reason : η} : ReadOnly (halt reason : Program σ ε η α) := by
  intro state found next returned
  cases returned

theorem readOnly_bind {head : Program σ ε η α} {rest : α → Program σ ε η β}
    (first : ReadOnly head) (later : ∀ value, ReadOnly (rest value))
    : ReadOnly (head >>= rest) := by
  intro state value next returned
  obtain ⟨found, between, ran, continued, _⟩ := bind_returned returned
  exact (later found between value next continued).trans (first state found between ran)

/-- Every run that returns performs this event. -/
def Emits (program : Program σ ε η α) (event : ε) : Prop :=
  ∀ state value next, (program state).result = .ok (value, next)
    → event ∈ (program state).trace

theorem emits_emit {event : ε} : Emits (emit event : Program σ ε η Unit) event :=
  fun _ _ _ _ => List.mem_singleton_self event

theorem Emits.bind {head : Program σ ε η α} {event : ε} (emits : Emits head event)
    (rest : α → Program σ ε η β)
    : Emits (head >>= rest) event := by
  intro state value next returned
  obtain ⟨found, between, ran, _, trace⟩ := bind_returned returned
  rw [trace]
  exact List.mem_append_left _ (emits state found between ran)

theorem emits_after {head : Program σ ε η α} {rest : α → Program σ ε η β} {event : ε}
    (emits : ∀ value, Emits (rest value) event)
    : Emits (head >>= rest) event := by
  intro state value next returned
  obtain ⟨found, between, _, continued, trace⟩ := bind_returned returned
  rw [trace]
  exact List.mem_append_right _ (emits found between value next continued)

/-- A loop that returns has run its body on each element, by induction on the list. -/
theorem emits_each {body : α → Program σ ε η Unit} {items : List α} {item : α} {event : ε}
    (member : item ∈ items) (emits : Emits (body item) event)
    : Emits (each body items) event := by
  induction items with
  | nil => cases member
  | cons head rest ih =>
      rw [each_cons]
      rcases List.mem_cons.mp member with rfl | later
      · exact emits.bind _
      · exact emits_after fun _ => ih later

/-- A run from `state` performs these events first. -/
def Begins (program : Program σ ε η α) (state : σ) (events : List ε) : Prop :=
  events <+: (program state).trace

theorem begins_emit {event : ε} {state : σ} : Begins (emit event : Program σ ε η Unit) state [event] :=
  List.prefix_rfl

theorem Begins.bind {head : Program σ ε η α} {state : σ} {events : List ε}
    (begins : Begins head state events) (rest : α → Program σ ε η β)
    : Begins (head >>= rest) state events := by
  match run : head state with
  | ⟨trace, .error _⟩ =>
      rw [Begins, run] at begins
      rw [Begins, bind_of_error run]
      exact begins
  | ⟨trace, .ok _⟩ =>
      rw [Begins, run] at begins
      rw [Begins, bind_of_ok run]
      exact begins.trans (List.prefix_append _ _)

/-- Events of a head that returns come before those of the continuation. -/
theorem Begins.after {head : Program σ ε η α} {rest : α → Program σ ε η β}
    {state next : σ} {value : α} {early events : List ε}
    (returned : head state = ⟨early, .ok (value, next)⟩)
    (begins : Begins (rest value) next events)
    : Begins (head >>= rest) state (early ++ events) := by
  rw [Begins, bind_of_ok returned]
  exact (List.prefix_append_right_inj early).mpr begins

/-- Whatever the body is, the run from `state` performs the same events first and then runs
the body from `inner`.
-/
def Enters (program : Program σ ε η α → Program σ ε η β) (state inner : σ) : Prop :=
  ∃ front, ∀ body, Begins (program body) state (front ++ (body inner).trace)

theorem enters_body {state : σ}
    : Enters (fun body : Program σ ε η α => body) state state :=
  ⟨[], fun _ => List.prefix_rfl⟩

/-- A sequence runs a body that its head runs. -/
theorem Enters.bind {γ : Type} {head : Program σ ε η α → Program σ ε η β} {state inner : σ}
    {rest : Program σ ε η α → β → Program σ ε η γ} (enters : Enters head state inner)
    : Enters (fun body => head body >>= rest body) state inner := by
  obtain ⟨front, begins⟩ := enters
  exact ⟨front, fun body => (begins body).bind (rest body)⟩

/-- A sequence whose head returns runs a body that its continuation runs. -/
theorem Enters.after {γ : Type} {head : Program σ ε η γ}
    {rest : Program σ ε η α → γ → Program σ ε η β} {state next inner : σ} {value : γ}
    {early : List ε} (returned : head state = ⟨early, .ok (value, next)⟩)
    (enters : Enters (fun body => rest body value) next inner)
    : Enters (fun body => head >>= rest body) state inner := by
  obtain ⟨front, begins⟩ := enters
  refine ⟨early ++ front, fun body => ?_⟩
  rw [List.append_assoc]
  exact Begins.after returned (begins body)

end Traced.Program
