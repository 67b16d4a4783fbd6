import Labrea.TimerFaults
import Labrea.TimerLedger

/-! Ticks in order and requests for later: every function is called at each of its times. -/

namespace Labrea.TimerQueue

open Machine (exec exec_invariant Meets)
open Relation (ReflTransGen)

variable {F : Type}

/-- The ticks are 0, 1, 2 and so on, delays and periods are positive, and functions return. -/
def State.OnSchedule (state : State ℤ F) : Action ℤ F → Prop
  | .request request => 0 < request.delay
  | .tick t => t = state.ticks
  | .call _ made returns _ _ => returns ∧ ∀ request ∈ made, 0 < request.delay
  | _ => True

instance (state : State ℤ F) : ∀ action, Decidable (state.OnSchedule action)
  | .request request => inferInstanceAs (Decidable (0 < request.delay))
  | .tick t => inferInstanceAs (Decidable (t = state.ticks))
  | .call _ made returns _ _ =>
      inferInstanceAs (Decidable (returns ∧ ∀ request ∈ made, 0 < request.delay))
  | .visit _ | .clear | .finish => isTrue trivial

/-- Only the key of the current tick can be due, and it is visited before the tick ends. -/
def State.KeysAhead (state : State ℤ F) : Prop :=
  match state.phase with
  | .idle => ∀ key ∈ state.keys, state.now < key
  | .outer todo =>
      (∀ key ∈ todo, state.now ≤ key)
      ∧ ∀ key ∈ state.keys, state.now ≤ key ∧ (key = state.now → key ∈ todo)
  | .inner todo key _ =>
      key = state.now
      ∧ (∀ unvisited ∈ todo, state.now < unvisited)
      ∧ ∀ other ∈ state.keys, state.now ≤ other

/-- The last tick had the number of ticks before it, and no key was left behind. -/
structure State.OnTime (state : State ℤ F) : Prop where
  clock : state.ticks = 0 ∧ state.now = 0 ∨ state.now + 1 = state.ticks
  keys : state.KeysAhead

/-- What the ledger of the timer is in a state of the queue. -/
def State.ledger (state : State ℤ F) : Ledger F :=
  ⟨state.live, state.log, state.registered, state.issued, state.now⟩

variable {state next : State ℤ F}

/-- Requests for later are added for later. -/
theorem requestEntries_later {now : ℤ} {issued : ℕ} {made : List (Request ℤ F)}
    (later : ∀ request ∈ made, 0 < request.delay)
    : ∀ added ∈ requestEntries now issued made, now < added.1 := by
  intro added member
  obtain ⟨⟨request, id⟩, numbered, rfl⟩ := List.mem_map.mp member
  have positive := later request (List.fst_mem_of_mem_zipIdx numbered)
  exact lt_add_of_pos_left now positive

theorem State.additions_later {entry : Entry ℤ F} {made : List (Request ℤ F)} {returns : Bool}
    (later : ∀ request ∈ made, 0 < request.delay)
    (periods : ∀ period f, entry.callback = .periodic period f → 0 < period)
    : ∀ added ∈ state.additions entry made returns, state.now < added.1 := by
  intro added member
  rcases List.mem_append.mp member with requested | renewed
  · exact requestEntries_later later added requested
  · obtain none | ⟨period, f, periodic, -, one⟩ :=
      entry.renewal_cases state.now (state.issued + made.length) returns
    · exact absurd (none ▸ renewed) List.not_mem_nil
    · rw [one] at renewed
      rw [List.mem_singleton.mp renewed]
      exact lt_add_of_pos_left state.now (periods period f periodic)

/-- A call adds for later only, since the function called is one of a request for later. -/
theorem State.OnSchedule.later {place : ℕ} {made : List (Request ℤ F)} {returns : Bool}
    {todo left : List ℤ} {key : ℤ} {funs remaining : List (Entry ℤ F)} {entry : Entry ℤ F}
    (onSchedule : state.OnSchedule (.call place made returns todo funs))
    (kept : state.ledger.Kept) (inner : state.phase = .inner left key remaining)
    (found : remaining[place]? = some entry)
    : ∀ added ∈ state.additions entry made returns, state.now < added.1 :=
  State.additions_later onSchedule.2 fun _ _ periodic =>
    kept.periods (State.live_remaining inner (List.mem_of_getElem? found)) periodic

/-- Such steps are calm. -/
theorem State.OnTime.calm {action : Action ℤ F} (onTime : state.OnTime)
    (kept : state.ledger.Kept) (onSchedule : state.OnSchedule action)
    : state.Calm action := by
  cases action with
  | call place made returns todo funs =>
      rw [State.Calm]
      cases inner : state.phase with
      | idle => trivial
      | outer left => trivial
      | inner left key remaining =>
          have ahead := onTime.keys
          rw [State.KeysAhead, inner] at ahead
          intro entry found
          have later := onSchedule.later kept inner found
          exact ⟨onSchedule.1, fun added member early => absurd early (later added member).not_ge,
            Or.inr ahead.2.1⟩
  | request request => trivial
  | tick t => trivial
  | visit key => trivial
  | clear => trivial
  | finish => trivial

variable [DecidableEq F]

/-- A tick comes before every key, and leaves none that is due. -/
theorem State.OnTime.step {action : Action ℤ F} (onTime : state.OnTime)
    (covered : state.Covered) (kept : state.ledger.Kept) (onSchedule : state.OnSchedule action)
    (stepped : state.step action = some next)
    : next.OnTime := by
  have calm := onTime.calm kept onSchedule
  obtain ⟨clock, ahead⟩ := onTime
  cases action with
  | request request =>
      obtain ⟨idle, rfl⟩ := State.step_request stepped
      rw [State.request_eq]
      rw [State.KeysAhead, idle] at ahead
      refine ⟨clock, ?_⟩
      rw [State.KeysAhead, idle]
      intro key member
      obtain ⟨entry, queued⟩ := State.mem_keys.mp member
      rcases List.mem_append.mp queued with old | new
      · exact ahead key (State.mem_keys.mpr ⟨entry, old⟩)
      · obtain ⟨rfl, -⟩ := Prod.mk.inj (List.mem_singleton.mp new)
        exact lt_add_of_pos_left state.now onSchedule
  | tick t =>
      obtain ⟨idle, rfl⟩ := State.step_tick stepped
      rw [State.KeysAhead, idle] at ahead
      obtain rfl : t = state.ticks := onSchedule
      refine ⟨Or.inr (by simp), fun key member => ?_, fun key member => ⟨?_, fun _ => member⟩⟩
      all_goals
        have later := ahead key member
        dsimp only
        omega
  | visit key =>
      rcases State.step_visit stepped with ⟨todo, outer, left, ⟨present, due, rfl⟩ | ⟨notDue, rfl⟩⟩
      all_goals
        rw [State.KeysAhead, outer] at ahead
        rw [State.Covered, outer] at covered
        refine ⟨clock, ?_⟩
      · obtain rfl : key = state.now := le_antisymm due (ahead.1 key left)
        refine ⟨rfl, fun unvisited member => ?_, fun other member => (ahead.2 other member).1⟩
        obtain ⟨other, member⟩ := (covered.1.mem_erase_iff).mp member
        exact lt_of_le_of_ne (ahead.1 unvisited member) other.symm
      · refine ⟨fun other member => ahead.1 other (List.mem_of_mem_erase member),
          fun other member => ⟨(ahead.2 other member).1, fun due => ?_⟩⟩
        refine (List.mem_erase_of_ne ?_).mpr ((ahead.2 other member).2 due)
        rintro rfl
        exact absurd due (notDue member).ne'
  | call place made returns todo funs =>
      obtain ⟨left, key, remaining, entry, inner, found, -, -, -, -, goes, -, -, rfl⟩ :=
        State.calm_call covered calm stepped
      have later := onSchedule.later kept inner found
      rw [State.KeysAhead, inner] at ahead
      obtain ⟨same, unvisited, keys⟩ := ahead
      refine ⟨clock, same, fun other member => ?_, fun other member => ?_⟩
      · rcases goes other member with old | ⟨new, added⟩
        · exact unvisited other old
        · exact later _ added
      · obtain ⟨entry, queued⟩ := State.mem_keys.mp member
        rcases List.mem_append.mp queued with old | new
        · exact keys other (State.mem_keys.mpr ⟨entry, old⟩)
        · exact (later _ new).le
  | clear =>
      obtain ⟨todo, key, inner, rfl⟩ := State.step_clear stepped
      rw [State.KeysAhead, inner] at ahead
      obtain ⟨rfl, unvisited, keys⟩ := ahead
      refine ⟨clock, fun other member => (unvisited other member).le, fun other member => ?_⟩
      obtain ⟨entry, queued⟩ := State.mem_keys.mp member
      obtain ⟨queued, other⟩ := List.mem_filter.mp queued
      refine ⟨keys _ (State.mem_keys.mpr ⟨entry, queued⟩), fun same => ?_⟩
      exact absurd same (of_decide_eq_true other)
  | finish =>
      obtain ⟨outer, rfl⟩ := State.step_finish stepped
      rw [State.KeysAhead, outer] at ahead
      refine ⟨clock, fun key member => ?_⟩
      obtain ⟨reached, due⟩ := ahead.2 key member
      exact lt_of_le_of_ne reached fun same => absurd (due same.symm) List.not_mem_nil

-----------------------------------------------------------------------------------------
-- The queue keeps the ledger
-----------------------------------------------------------------------------------------

omit [DecidableEq F] in
/-- Requests made one after the other, by induction on them. -/
theorem Ledger.registers (ledger : Ledger F) {made : List (Request ℤ F)}
    (later : ∀ request ∈ made, 0 < request.delay)
    : ReflTransGen Ledger.Step ledger (made.foldl Ledger.register ledger) := by
  induction made generalizing ledger with
  | nil => exact .refl
  | cons request rest ih =>
      have first := Ledger.Step.register ledger request (later request List.mem_cons_self)
      exact .head first (ih _ fun other member => later other (List.mem_cons_of_mem request member))

omit [DecidableEq F] in
/-- They are numbered in their order, by induction on them. -/
theorem Ledger.registers_eq (ledger : Ledger F) (made : List (Request ℤ F))
    : made.foldl Ledger.register ledger
      = { ledger with
        live := ledger.live + (requestEntries ledger.now ledger.issued made : List _)
        registered := ledger.registered ++ requestRecords ledger.now ledger.issued made
        issued := ledger.issued + made.length } := by
  induction made generalizing ledger with
  | nil => simp [requestEntries, requestRecords]
  | cons request rest ih =>
      rw [List.foldl_cons, ih, Ledger.register]
      simp [requestEntries, requestRecords, Nat.add_assoc, Nat.add_comm 1,
        ← Multiset.cons_coe, Multiset.add_cons]

/-- A call makes its requests, and is one of a function that waits for the tick. -/
theorem State.ledger_call {place : ℕ} {made : List (Request ℤ F)} {returns : Bool}
    {todo : List ℤ} {funs : List (Entry ℤ F)} (onTime : state.OnTime) (covered : state.Covered)
    (kept : state.ledger.Kept) (onSchedule : state.OnSchedule (.call place made returns todo funs))
    (stepped : state.step (.call place made returns todo funs) = some next)
    : ∃ entry rest,
        (made.foldl Ledger.register state.ledger).live
          = ((made.foldl Ledger.register state.ledger).now, entry) ::ₘ rest
        ∧ next.ledger = (made.foldl Ledger.register state.ledger).call entry rest := by
  obtain ⟨left, key, remaining, entry, inner, found, registered, now, effect⟩ :=
    State.calm_call_effect covered (onTime.calm kept onSchedule) stepped
  have ahead := onTime.keys
  rw [State.KeysAhead, inner] at ahead
  obtain ⟨rfl, -, -⟩ := ahead
  obtain rfl : returns = true := onSchedule.1
  rw [Ledger.registers_eq]
  have waits : (state.now, entry) ∈ state.live
      + (requestEntries state.now state.issued made : Multiset (ℤ × Entry ℤ F)) :=
    Multiset.mem_add.mpr (Or.inl (State.live_remaining inner (List.mem_of_getElem? found)))
  obtain ⟨rest, split⟩ := Multiset.exists_cons_of_mem waits
  refine ⟨entry, rest, split, ?_⟩
  have live := effect.live
  rw [State.additions, ← Multiset.coe_add, ← add_assoc, split, Multiset.coe_singleton,
    Multiset.singleton_add, Multiset.cons_add, Multiset.cons_inj_right] at live
  rw [State.ledger, live, effect.log, registered, now, effect.issued]
  simp [Ledger.call, State.ledger, State.additions, requestEntries_length, Nat.add_assoc]

omit [DecidableEq F] in
/-- A step that calls and adds nothing leaves the ledger as it is. -/
theorem State.Still.ledger (still : state.Still next) (now : next.now = state.now)
    : ReflTransGen Ledger.Step state.ledger next.ledger := by
  rw [State.ledger, State.ledger, still.live, still.log, still.registered, still.issued, now]

/-- Each step of the queue is a few steps of its ledger. -/
theorem State.ledger_step {action : Action ℤ F} (onTime : state.OnTime)
    (covered : state.Covered) (kept : state.ledger.Kept) (onSchedule : state.OnSchedule action)
    (stepped : state.step action = some next)
    : ReflTransGen Ledger.Step state.ledger next.ledger := by
  cases action with
  | request request =>
      obtain ⟨idle, rfl⟩ := State.step_request stepped
      have same : (state.request request).ledger = state.ledger.register request := by
        rw [State.request_eq]
        simp only [State.ledger, Ledger.register, State.live, idle, Multiset.cons_coe]
        congr 1
        exact Multiset.coe_eq_coe.mpr (List.perm_append_singleton _ _)
      exact same ▸ .single (.register _ request onSchedule)
  | tick t =>
      obtain ⟨idle, rfl⟩ := State.step_tick stepped
      have ahead := onTime.keys
      rw [State.KeysAhead, idle] at ahead
      obtain rfl : t = state.ticks := onSchedule
      have live : state.live = state.queue := by rw [State.live, idle]
      refine .single (cast ?_ (Ledger.Step.advance state.ledger state.ticks ?_ ?_))
      · rw [State.ledger, State.ledger, live]
        rfl
      · have clock := onTime.clock
        change state.now ≤ state.ticks
        omega
      · intro pair member
        have clock := onTime.clock
        have queued : pair ∈ state.queue := Multiset.mem_coe.mp (live ▸ member)
        have later := ahead pair.1 (State.mem_keys.mpr ⟨pair.2, queued⟩)
        omega
  | call place made returns todo funs =>
      obtain ⟨entry, rest, waits, same⟩ :=
        State.ledger_call onTime covered kept onSchedule stepped
      rw [same]
      exact (Ledger.registers state.ledger onSchedule.2).tail (.call _ entry rest waits)
  | visit key =>
      have still := State.still_of_step rfl stepped
      obtain ⟨todo, -, -, ⟨-, -, rfl⟩ | ⟨-, rfl⟩⟩ := State.step_visit stepped
      all_goals exact still.ledger rfl
  | clear =>
      have still := State.still_of_step rfl stepped
      obtain ⟨todo, key, -, rfl⟩ := State.step_clear stepped
      exact still.ledger rfl
  | finish =>
      have still := State.still_of_step rfl stepped
      obtain ⟨-, rfl⟩ := State.step_finish stepped
      exact still.ledger rfl

omit [DecidableEq F] in
/-- Between ticks everything in the queue is for later. -/
theorem State.OnTime.idle (onTime : state.OnTime) (idle : state.phase = .idle)
    : ∀ pair ∈ state.live, state.now < pair.1 := by
  intro pair member
  have ahead := onTime.keys
  rw [State.KeysAhead, idle] at ahead
  rw [State.live, idle] at member
  exact ahead pair.1 (State.mem_keys.mpr ⟨pair.2, Multiset.mem_coe.mp member⟩)

/-- The queue keeps the ledger, and covers what is due in time. -/
structure State.Kept (state : State ℤ F) : Prop where
  covered : state.Covered
  onTime : state.OnTime
  ledger : ReflTransGen Ledger.Step Ledger.empty state.ledger

omit [DecidableEq F] in
theorem State.kept_holding : (State.holding [] 0 : State ℤ F).Kept :=
  ⟨fun _ none => absurd none List.not_mem_nil,
    ⟨Or.inl ⟨rfl, rfl⟩, fun _ none => absurd none List.not_mem_nil⟩, .refl⟩

theorem State.Kept.step {action : Action ℤ F} (kept : state.Kept)
    (onSchedule : state.OnSchedule action) (stepped : state.step action = some next)
    : next.Kept :=
  have ledger := Ledger.kept_of_steps kept.ledger
  { covered := kept.covered.step (kept.onTime.calm ledger onSchedule) stepped
    onTime := kept.onTime.step kept.covered ledger onSchedule stepped
    ledger := kept.ledger.trans
      (State.ledger_step kept.onTime kept.covered ledger onSchedule stepped) }

/-- A function for tick 1, which asks for another one, and a periodic one; in tick 1 the
traversal skips what it has left after the new key.
-/
def threeTicks : List (Action ℤ ℕ) :=
  [.request (.schedule 1 0), .request (.periodic 2 1), .tick 0, .visit 1, .visit 2, .finish,
    .tick 1, .visit 1, .call 0 [.schedule 2 5] true [] [], .clear, .finish,
    .tick 2, .visit 2, .call 0 [] true [3, 4] [], .clear, .visit 3, .visit 4, .finish]

end Labrea.TimerQueue
