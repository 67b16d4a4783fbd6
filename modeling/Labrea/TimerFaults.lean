import Mathlib.Data.List.Perm.Basic
import Mathlib.Algebra.Order.Group.Multiset
import Mathlib.Tactic.Abel
import Labrea.TimerQueue

/-! Which runs of the timer call every scheduled function once, and in its tick. -/

namespace Labrea.TimerQueue

open Machine (exec exec_invariant Meets)
open Traversal (Continues continues_nil)

/-- Taking out one element leaves the others. -/
theorem cons_eraseIdx_perm {α : Type} {list : List α} {place : Nat} {item : α}
    (found : list[place]? = some item)
    : (item :: list.eraseIdx place).Perm list := by
  obtain ⟨bound, rfl⟩ := List.getElem?_eq_some_iff.mp found
  exact List.getElem_cons_eraseIdx_perm bound

/-- Among the elements of one key, the one at a place and the others. -/
theorem map_key_eraseIdx {α β : Type} (key : α) {list : List β} {place : Nat} {item : β}
    (found : list[place]? = some item)
    : ((list.map (Prod.mk key) : List _) : Multiset (α × β))
      = {(key, item)} + ((list.eraseIdx place).map (Prod.mk key) : List _) :=
  Multiset.coe_eq_coe.mpr ((cons_eraseIdx_perm found).map (Prod.mk key)).symm

variable {Num F : Type} [LinearOrder Num]

/-- The functions still to be called, under their keys: in the inner loop, of those under its
key, the ones it has left.
-/
def State.live (state : State Num F) : Multiset (Num × Entry Num F) :=
  match state.phase with
  | .inner _ key funs =>
      (state.queue.filter fun (k, _) => k ≠ key : List _) + (funs.map (Prod.mk key) : List _)
  | _ => (state.queue : List _)

/-- A function that the inner loop has left is still to be called. -/
theorem State.live_remaining {state : State Num F} {todo : List Num} {key : Num}
    {remaining : List (Entry Num F)} {entry : Entry Num F} (inner : state.phase = .inner todo key remaining)
    (left : entry ∈ remaining)
    : (key, entry) ∈ state.live := by
  rw [State.live, inner]
  exact Multiset.mem_add.mpr (Or.inr (Multiset.mem_coe.mpr (List.mem_map_of_mem left)))

/-- Functions are under a key or under others. -/
theorem split_key (pairs : List (Num × Entry Num F)) (key : Num)
    : ((pairs.filter fun (k, _) => k ≠ key : List _) : Multiset (Num × Entry Num F))
        + (((pairs.filter fun (k, _) => k = key).map Prod.snd).map (Prod.mk key) : List _)
      = (pairs : List _) := by
  have under : ((pairs.filter fun (k, _) => k = key).map Prod.snd).map (Prod.mk key)
      = pairs.filter fun (k, _) => k = key := by
    rw [List.map_map]
    refine (List.map_congr_left fun pair member => ?_).trans (List.map_id _)
    have same : pair.1 = key := by simpa using List.of_mem_filter member
    exact Prod.ext same.symm rfl
  rw [under, Multiset.coe_add, Multiset.coe_eq_coe]
  have split := List.filter_append_perm (fun pair : Num × Entry Num F => pair.1 ≠ key) pairs
  simpa using split

/-- The function is under a key that is due and still to be visited. -/
def State.Waits (state : State Num F) (todo : List Num) (entry : Entry Num F) : Prop :=
  ∃ key ∈ todo, key ≤ state.now ∧ (key, entry) ∈ state.queue

/-- Every due function has been called in the tick, or is still to be. -/
def State.Covered (state : State Num F) : Prop :=
  match state.phase with
  | .idle => ∀ entry ∈ state.due, (state.now, entry) ∈ state.log
  | .outer todo =>
      todo.Nodup
      ∧ ∀ entry ∈ state.due, (state.now, entry) ∈ state.log ∨ state.Waits todo entry
  | .inner todo key funs =>
      todo.Nodup
      ∧ key ∉ todo
      ∧ key ≤ state.now
      ∧ key ∈ state.keys
      ∧ ∀ entry ∈ state.due,
          (state.now, entry) ∈ state.log ∨ entry ∈ funs ∨ state.Waits todo entry

/-- What a step does to the functions still to be called and to the record: some are called,
and some are added.
-/
structure State.Effect (state next : State Num F) (called added : List (Num × Entry Num F))
    : Prop where
  live : (called : Multiset (Num × Entry Num F)) + next.live = state.live + (added : List _)
  log : next.log = state.log ++ called.map fun pair => (state.now, pair.2)
  issued : next.issued = state.issued + added.length
  ids : added.map (fun pair => pair.2.id) = List.range' state.issued added.length
  origins
    : (added.map (fun pair => pair.2.origin) : Multiset Nat)
      ≤ (List.range' state.issued added.length : List Nat)
        + (called.map fun pair => pair.2.origin : List Nat)

/-- Distinct numbers of calls of `labrea.schedule` made so far. -/
structure Numbered (numbers : Multiset Nat) (issued : Nat) : Prop where
  nodup : numbers.Nodup
  bounded : ∀ number ∈ numbers, number < issued

/-- Numbers that are given out next are new. -/
theorem Numbered.extend {numbers later : Multiset Nat} {issued count : Nat}
    (numbered : Numbered numbers issued)
    (extended : later ≤ numbers + (List.range' issued count : List Nat))
    : Numbered later (issued + count) := by
  constructor
  · refine Multiset.nodup_of_le extended (Multiset.nodup_add.mpr
      ⟨numbered.nodup, Multiset.coe_nodup.mpr List.nodup_range', ?_⟩)
    refine Multiset.disjoint_left.mpr fun {number} old new => ?_
    have bound := numbered.bounded number old
    have fresh := (List.mem_range'_1.mp (Multiset.mem_coe.mp new)).1
    omega
  · intro number member
    rcases Multiset.mem_add.mp (Multiset.mem_of_le extended member) with old | new
    · exact Nat.lt_add_right count (numbered.bounded number old)
    · exact (List.mem_range'_1.mp (Multiset.mem_coe.mp new)).2

/-- The registrations of functions that are still to be called or have been. -/
def State.ids (state : State Num F) : Multiset Nat :=
  state.live.map (fun pair => pair.2.id) + (state.log.map fun pair => pair.2.id : List Nat)

/-- The requests of user code with a function still to be called. -/
def State.origins (state : State Num F) : Multiset Nat :=
  state.live.map fun pair => pair.2.origin

/-- Each registration has its function called once or still to be called once, and each request
of user code has one function still to be called at most.
-/
structure State.Counted (state : State Num F) : Prop where
  ids : Numbered state.ids state.issued
  origins : Numbered state.origins state.issued

section

variable {state next : State Num F} {called added : List (Num × Entry Num F)}

/-- A registration leaves the functions still to be called by a call of its function. -/
theorem State.Effect.ids_eq
    (effect : state.Effect next called added)
    : next.ids = state.ids + (List.range' state.issued added.length : List Nat) := by
  have live := congrArg (Multiset.map fun pair => pair.2.id) effect.live
  simp only [Multiset.map_add, Multiset.map_coe, effect.ids] at live
  have log : next.log.map (fun pair => pair.2.id)
      = state.log.map (fun pair => pair.2.id) ++ called.map fun pair => pair.2.id := by
    simp [effect.log]
  rw [State.ids, State.ids, log, ← Multiset.coe_add, add_left_comm, add_comm (Multiset.map _ _),
    live]
  abel

/-- A request of user code has a new function only in place of one that is called. -/
theorem State.Effect.origins_le
    (effect : state.Effect next called added)
    : next.origins ≤ state.origins + (List.range' state.issued added.length : List Nat) := by
  have live := congrArg (Multiset.map fun pair => pair.2.origin) effect.live
  simp only [Multiset.map_add, Multiset.map_coe] at live
  refine (Multiset.add_le_add_iff_left
    (s := (called.map fun pair => pair.2.origin : List Nat))).mp ?_
  calc (called.map (fun pair => pair.2.origin) : Multiset Nat) + next.origins
      = state.origins + (added.map fun pair => pair.2.origin : List Nat) := live
    _ ≤ state.origins
          + ((List.range' state.issued added.length : List Nat)
            + (called.map fun pair => pair.2.origin : List Nat)) :=
        Multiset.add_le_add_iff_left.mpr effect.origins
    _ = (called.map fun pair => pair.2.origin : List Nat)
          + (state.origins + (List.range' state.issued added.length : List Nat)) := by
        abel

theorem State.Counted.after (counted : state.Counted)
    (effect : state.Effect next called added)
    : next.Counted := by
  constructor
  · rw [effect.issued]
    exact counted.ids.extend effect.ids_eq.le
  · rw [effect.issued]
    exact counted.origins.extend effect.origins_le

end

-----------------------------------------------------------------------------------------
-- Calls that disturb nothing
-----------------------------------------------------------------------------------------

variable [Add Num]

/-- The function of a call returns. What is added to the queue meanwhile is later than the tick
or under a key still to be visited; and it makes a new key only if no due key is still to be
visited.
-/
def State.CallsCalmly (state : State Num F) (place : Nat) (made : List (Request Num F))
    (returns : Bool) : Phase Num F → Prop
  | .inner left _ remaining =>
      ∀ entry ∈ remaining[place]?,
        returns
        ∧ (∀ added ∈ state.additions entry made returns, added.1 ≤ state.now → added.1 ∈ left)
        ∧ ((∀ added ∈ state.additions entry made returns, added.1 ∈ state.keys)
          ∨ ∀ unvisited ∈ left, state.now < unvisited)
  | _ => True

/-- A call disturbs no other function. -/
def State.Calm (state : State Num F) : Action Num F → Prop
  | .call place made returns _ _ => state.CallsCalmly place made returns state.phase
  | _ => True

instance (state : State Num F) (place : Nat) (made : List (Request Num F)) (returns : Bool)
    : ∀ phase, Decidable (state.CallsCalmly place made returns phase)
  | .idle => isTrue trivial
  | .outer _ => isTrue trivial
  | .inner left _ remaining =>
      inferInstanceAs (Decidable (∀ entry ∈ remaining[place]?,
        returns
        ∧ (∀ added ∈ state.additions entry made returns, added.1 ≤ state.now → added.1 ∈ left)
        ∧ ((∀ added ∈ state.additions entry made returns, added.1 ∈ state.keys)
          ∨ ∀ unvisited ∈ left, state.now < unvisited)))

instance (state : State Num F) : ∀ action, Decidable (state.Calm action)
  | .call place made returns _ _ =>
      inferInstanceAs (Decidable (state.CallsCalmly place made returns state.phase))
  | .request _ | .tick _ | .visit _ | .clear | .finish => isTrue trivial

variable [DecidableEq F] {state next : State Num F}

/-- A calm call adds nothing under its own key, and both traversals go on with everything due:
a new key means that no due key is left, and no new function is under the key of the call.
-/
theorem State.calm_call {place : Nat} {made : List (Request Num F)} {returns : Bool}
    {todo : List Num} {funs : List (Entry Num F)} (covered : state.Covered)
    (calm : state.Calm (.call place made returns todo funs))
    (stepped : state.step (.call place made returns todo funs) = some next)
    : ∃ left key remaining entry,
        state.phase = .inner left key remaining
        ∧ remaining[place]? = some entry
        ∧ returns
        ∧ (∀ added ∈ state.additions entry made returns, added.1 ≠ key)
        ∧ (∀ added ∈ state.additions entry made returns,
            added.1 ≤ state.now → added.1 ∈ todo)
        ∧ (∀ unvisited ∈ left, unvisited ≤ state.now → unvisited ∈ todo)
        ∧ (∀ unvisited ∈ todo,
            unvisited ∈ left ∨ ∃ new, (unvisited, new) ∈ state.additions entry made returns)
        ∧ todo.Nodup
        ∧ key ∉ todo
        ∧ next = { state with
            queue := state.queue ++ state.additions entry made returns
            issued := state.issued + (state.additions entry made returns).length
            registered := state.registered ++ requestRecords state.now state.issued made
            log := state.log ++ [(state.now, entry)]
            phase := .inner todo key (remaining.eraseIdx place)
            due := state.due
              ++ ((state.additions entry made returns).filter fun (k, _) => state.now ≥ k).map
                Prod.snd } := by
  obtain ⟨left, key, remaining, entry, inner, found, ending⟩ := State.step_call stepped
  rw [State.Calm, inner] at calm
  obtain ⟨returned, later, room⟩ := calm entry found
  rw [State.Covered, inner] at covered
  obtain ⟨nodup, visited, due, present, -⟩ := covered
  have apart : ∀ added ∈ state.additions entry made returns, added.1 ≠ key := by
    intro added member same
    exact visited (same ▸ later added member (same ▸ due))
  have noFuns : state.newFuns (state.call entry made returns) key = [] := by
    rw [State.newFuns_call, List.map_eq_nil_iff, List.filter_eq_nil_iff]
    simpa using apart
  rcases ending with ⟨-, keys, functions, rfl⟩ | ⟨raised, -⟩
  case inr => exact absurd (returned.symm.trans raised) (by simp)
  rw [noFuns, continues_nil] at functions
  have goesOn : ∀ unvisited ∈ left, unvisited ≤ state.now → unvisited ∈ todo := by
    intro unvisited member reached
    rcases room with old | none
    · have noKeys : state.newKeys (state.call entry made returns) = [] := by
        refine List.eq_nil_iff_forall_not_mem.mpr fun new isNew => ?_
        obtain ⟨fresh, other, member⟩ := State.mem_newKeys_call.mp isNew
        exact fresh (old _ member)
      rw [noKeys, continues_nil] at keys
      exact keys ▸ member
    · exact absurd reached (not_le.mpr (none unvisited member))
  refine ⟨left, key, remaining, entry, inner, found, returned, apart,
    fun added member reached => goesOn _ (later added member reached) reached, goesOn,
    fun unvisited member => (keys.mem member).imp_right fun new =>
      (State.mem_newKeys_call.mp new).2,
    keys.nodup nodup, fun again => ?_, ?_⟩
  · rcases keys.mem again with before | new
    · exact visited before
    · exact (State.mem_newKeys_call.mp new).1 present
  · rw [State.newDue_call, State.call_eq, functions]

/-- Calm steps lose no due function. -/
theorem State.Covered.step {action : Action Num F} (covered : state.Covered)
    (calm : state.Calm action) (stepped : state.step action = some next)
    : next.Covered := by
  cases action with
  | request request =>
      obtain ⟨idle, rfl⟩ := State.step_request stepped
      rw [State.Covered, idle] at covered
      rw [State.request_eq, State.Covered, idle]
      exact covered
  | tick t =>
      obtain ⟨-, rfl⟩ := State.step_tick stepped
      refine ⟨List.nodup_dedup _, fun entry member => Or.inr ?_⟩
      simp only [List.mem_map, List.mem_filter, decide_eq_true_eq] at member
      obtain ⟨⟨key, entry⟩, ⟨queued, reached⟩, rfl⟩ := member
      exact ⟨key, State.mem_keys.mpr ⟨entry, queued⟩, reached, queued⟩
  | visit key =>
      obtain ⟨todo, outer, left, visited⟩ := State.step_visit stepped
      rw [State.Covered, outer] at covered
      obtain ⟨nodup, due⟩ := covered
      rcases visited with ⟨present, reached, rfl⟩ | ⟨notDue, rfl⟩
      · refine ⟨nodup.erase key, nodup.not_mem_erase, reached, present, fun entry member => ?_⟩
        refine (due entry member).imp_right fun ⟨k, waits, early, queued⟩ => ?_
        by_cases same : k = key
        · exact Or.inl (State.mem_funs.mpr (same ▸ queued))
        · exact Or.inr ⟨k, (List.mem_erase_of_ne same).mpr waits, early, queued⟩
      · refine ⟨nodup.erase key, fun entry member => ?_⟩
        refine (due entry member).imp_right fun ⟨k, waits, early, queued⟩ => ?_
        have other : k ≠ key := by
          rintro rfl
          exact absurd early (not_le.mpr (notDue (State.mem_keys.mpr ⟨entry, queued⟩)))
        exact ⟨k, (List.mem_erase_of_ne other).mpr waits, early, queued⟩
  | call place made returns todo funs =>
      obtain ⟨left, key, remaining, entry, inner, found, -, -, newDue, goesOn, -, nodup, visited,
        rfl⟩ := State.calm_call covered calm stepped
      rw [State.Covered, inner] at covered
      obtain ⟨-, -, reached, present, due⟩ := covered
      refine ⟨nodup, visited, reached, ?_, fun other member => ?_⟩
      · obtain ⟨old, queued⟩ := State.mem_keys.mp present
        exact State.mem_keys.mpr ⟨old, List.mem_append_left _ queued⟩
      · rcases List.mem_append.mp member with before | new
        · rcases due other before with called | waits | ⟨k, waits, early, queued⟩
          · exact Or.inl (List.mem_append_left _ called)
          · rcases List.mem_cons.mp ((cons_eraseIdx_perm found).mem_iff.mpr waits) with rfl | later
            · exact Or.inl (List.mem_append_right _ (List.mem_singleton_self _))
            · exact Or.inr (Or.inl later)
          · exact Or.inr (Or.inr ⟨k, goesOn k waits early, early, List.mem_append_left _ queued⟩)
        · simp only [List.mem_map, List.mem_filter, decide_eq_true_eq] at new
          obtain ⟨⟨k, other⟩, ⟨added, early⟩, rfl⟩ := new
          exact Or.inr (Or.inr ⟨k, newDue _ added early, early, List.mem_append_right _ added⟩)
  | clear =>
      obtain ⟨todo, key, inner, rfl⟩ := State.step_clear stepped
      rw [State.Covered, inner] at covered
      obtain ⟨nodup, visited, -, -, due⟩ := covered
      refine ⟨nodup, fun entry member => ?_⟩
      rcases due entry member with called | none | ⟨k, waits, early, queued⟩
      · exact Or.inl called
      · exact absurd none List.not_mem_nil
      · refine Or.inr ⟨k, waits, early, List.mem_filter.mpr ⟨queued, ?_⟩⟩
        simpa using ne_of_mem_of_not_mem waits visited
  | finish =>
      obtain ⟨outer, rfl⟩ := State.step_finish stepped
      rw [State.Covered, outer] at covered
      intro entry member
      rcases covered.2 entry member with called | ⟨k, waits, -⟩
      · exact called
      · exact absurd waits List.not_mem_nil

section

omit [LinearOrder Num] [DecidableEq F]

theorem requestEntries_ids (now : Num) (issued : Nat) (made : List (Request Num F))
    : (requestEntries now issued made).map (fun pair => pair.2.id)
      = List.range' issued made.length := by
  rw [requestEntries, List.map_map]
  exact List.zipIdx_map_snd issued made

theorem requestEntries_origins (now : Num) (issued : Nat) (made : List (Request Num F))
    : (requestEntries now issued made).map (fun pair => pair.2.origin)
      = List.range' issued made.length := by
  rw [requestEntries, List.map_map]
  exact List.zipIdx_map_snd issued made

theorem requestEntries_length (now : Num) (issued : Nat) (made : List (Request Num F))
    : (requestEntries now issued made).length = made.length := by
  simp [requestEntries]

/-- Additions are numbered by the calls of `labrea.schedule`. -/
theorem State.additions_ids (state : State Num F) (entry : Entry Num F)
    (made : List (Request Num F)) (returns : Bool)
    : (state.additions entry made returns).map (fun pair => pair.2.id)
      = List.range' state.issued (state.additions entry made returns).length := by
  rw [State.additions, List.map_append, requestEntries_ids, List.length_append,
    requestEntries_length]
  obtain none | ⟨period, f, -, -, renewed⟩ :=
    entry.renewal_cases state.now (state.issued + made.length) returns
  · rw [none]
    simp
  · rw [renewed]
    simp [List.range'_concat]

/-- An addition is a request of its own, but for the renewal of the function called. -/
theorem State.additions_origins (state : State Num F) (entry : Entry Num F)
    (made : List (Request Num F)) (returns : Bool)
    : ((state.additions entry made returns).map (fun pair => pair.2.origin) : Multiset Nat)
      ≤ (List.range' state.issued (state.additions entry made returns).length : List Nat)
        + {entry.origin} := by
  rw [State.additions, List.map_append, requestEntries_origins, List.length_append,
    requestEntries_length]
  obtain none | ⟨period, f, -, -, renewed⟩ :=
    entry.renewal_cases state.now (state.issued + made.length) returns
  · rw [none]
    exact List.append_nil _ ▸ Multiset.le_add_right _ _
  · rw [renewed, ← Multiset.coe_add]
    exact Multiset.add_le_add_iff_right.mpr
      (List.range'_sublist_right.mpr (Nat.le_add_right _ 1)).subperm

end

/-- A calm call takes its function out of those under the key of the inner loop. -/
theorem State.calm_call_effect {place : Nat} {made : List (Request Num F)} {returns : Bool}
    {todo : List Num} {funs : List (Entry Num F)} (covered : state.Covered)
    (calm : state.Calm (.call place made returns todo funs))
    (stepped : state.step (.call place made returns todo funs) = some next)
    : ∃ left key remaining entry,
        state.phase = .inner left key remaining
        ∧ remaining[place]? = some entry
        ∧ next.registered = state.registered ++ requestRecords state.now state.issued made
        ∧ next.now = state.now
        ∧ state.Effect next [(key, entry)] (state.additions entry made returns) := by
  obtain ⟨left, key, remaining, entry, inner, found, -, apart, -, -, -, -, -, rfl⟩ :=
    State.calm_call covered calm stepped
  refine ⟨left, key, remaining, entry, inner, found, rfl, rfl, ?_, rfl, rfl,
    state.additions_ids _ _ _, state.additions_origins _ _ _⟩
  have kept : ((state.additions entry made returns).filter fun (k, _) => k ≠ key)
      = state.additions entry made returns :=
    List.filter_eq_self.mpr fun added member => decide_eq_true (apart added member)
  simp only [State.live, inner, List.filter_append, kept]
  rw [map_key_eraseIdx key found, ← Multiset.coe_add, Multiset.coe_singleton]
  abel

/-- An action that may add to the queue. -/
def Action.adds : Action Num F → Bool
  | .request _ | .call .. => true
  | _ => false

/-- Nothing has been called and nothing added. -/
structure State.Still (state next : State Num F) : Prop where
  live : next.live = state.live
  log : next.log = state.log
  registered : next.registered = state.registered
  issued : next.issued = state.issued

/-- The traversals alone change nothing that is live, by cases on the action. -/
theorem State.still_of_step {action : Action Num F} (none : action.adds = false)
    (stepped : state.step action = some next)
    : state.Still next := by
  cases action with
  | request request => cases none
  | call place made returns todo funs => cases none
  | tick t =>
      obtain ⟨idle, rfl⟩ := State.step_tick stepped
      refine ⟨?_, rfl, rfl, rfl⟩
      simp [State.live, idle]
  | visit key =>
      rcases State.step_visit stepped with ⟨todo, outer, -, ⟨-, -, rfl⟩ | ⟨-, rfl⟩⟩
      · refine ⟨?_, rfl, rfl, rfl⟩
        rw [State.live, State.live, outer]
        exact split_key state.queue key
      · refine ⟨?_, rfl, rfl, rfl⟩
        simp [State.live, outer]
  | clear =>
      obtain ⟨todo, key, inner, rfl⟩ := State.step_clear stepped
      refine ⟨?_, rfl, rfl, rfl⟩
      simp [State.live, inner]
  | finish =>
      obtain ⟨outer, rfl⟩ := State.step_finish stepped
      refine ⟨?_, rfl, rfl, rfl⟩
      simp [State.live, outer]

omit [Add Num] [DecidableEq F] in
theorem State.Still.effect (still : state.Still next) : state.Effect next [] [] :=
  ⟨by simpa using still.live, by simpa using still.log, still.issued, rfl, by simp⟩

/-- Every calm step has such an effect, by cases on the action. -/
theorem State.effect {action : Action Num F} (covered : state.Covered)
    (calm : state.Calm action) (stepped : state.step action = some next)
    : ∃ called added, state.Effect next called added := by
  cases action with
  | request request =>
      obtain ⟨idle, rfl⟩ := State.step_request stepped
      refine ⟨[], [(request.delay + state.now, ⟨state.issued, state.issued, request.callback⟩)],
        ?_, ?_, ?_, rfl, by simp⟩
      · simp [State.request_eq, State.live, idle, ← Multiset.coe_add]
      all_goals simp [State.request_eq]
  | call place made returns todo funs =>
      obtain ⟨-, key, -, entry, -, -, -, -, effect⟩ := State.calm_call_effect covered calm stepped
      exact ⟨_, _, effect⟩
  | tick t => exact ⟨[], [], (State.still_of_step rfl stepped).effect⟩
  | visit key => exact ⟨[], [], (State.still_of_step rfl stepped).effect⟩
  | clear => exact ⟨[], [], (State.still_of_step rfl stepped).effect⟩
  | finish => exact ⟨[], [], (State.still_of_step rfl stepped).effect⟩

/-- Each registration has had its function called once at most, each due function has been
called in the tick when it ends, and no request of user code has two functions to be called.
-/
structure State.Undisturbed (state : State Num F) : Prop where
  once : (state.log.map fun pair => pair.2.id).Nodup
  inTick : state.phase = .idle → ∀ entry ∈ state.due, (state.now, entry) ∈ state.log
  chains : state.origins.Nodup

omit [Add Num] [DecidableEq F] in
/-- At the start the functions of the queue are numbered in their order. -/
theorem State.counted_holding (content : List (Num × Callback Num F)) (now : Num)
    : (State.holding content now).Counted := by
  have numbered : Numbered (List.range' 0 content.length : List Nat) content.length := by
    refine ⟨Multiset.coe_nodup.mpr List.nodup_range', fun number member => ?_⟩
    simpa using (List.mem_range'_1.mp (Multiset.mem_coe.mp member)).2
  rw [← List.zipIdx_map_snd 0 content] at numbered
  constructor
  all_goals
    simpa [State.holding, State.ids, State.origins, State.live, Function.comp_def] using numbered

/-- A run of calm steps disturbs nothing. Witness: two invariants, by induction on the steps.
-/
theorem calm_undisturbed (content : List (Num × Callback Num F)) (now : Num)
    {actions : List (Action Num F)} {last : State Num F}
    (run : exec State.step (State.holding content now) actions = some last)
    (calm : Meets State.step State.Calm (State.holding content now) actions)
    : last.Undisturbed := by
  have start : (State.holding content now).Covered ∧ (State.holding content now).Counted :=
    ⟨fun _ none => absurd none List.not_mem_nil, State.counted_holding content now⟩
  have keeps (state : State Num F) (action : Action Num F) (next : State Num F)
      (kept : state.Covered ∧ state.Counted) (fine : state.Calm action)
      (stepped : state.step action = some next) : next.Covered ∧ next.Counted := by
    obtain ⟨called, added, effect⟩ := State.effect kept.1 fine stepped
    exact ⟨kept.1.step fine stepped, kept.2.after effect⟩
  obtain ⟨covered, counted⟩ := exec_invariant keeps start run calm
  refine ⟨?_, fun idle => ?_, counted.origins.nodup⟩
  · exact Multiset.coe_nodup.mp
      (Multiset.nodup_of_le (Multiset.le_add_left _ _) counted.ids.nodup)
  · rw [State.Covered, idle] at covered
    exact covered

/-- A tick in which both due functions return, the second one with a request. -/
def returningTick : List (Action Int Nat) :=
  [.tick 1, .visit 1, .call 0 [] true [] [⟨1, 1, .periodic 2 1⟩],
    .call 0 [.schedule 2 5] true [] [], .clear, .finish]

/-- It adds two functions under one later key when no other key is left. -/
theorem returningTick_undisturbed
    : ∃ last : State Int Nat,
        exec State.step (State.holding [(1, .plain 0), (1, .periodic 2 1)] 0) returningTick
          = some last
        ∧ last.Undisturbed := by
  obtain ⟨last, run⟩ := Option.isSome_iff_exists.mp
    (show (exec State.step (State.holding [(1, .plain 0), (1, .periodic 2 1)] 0)
      returningTick).isSome from by decide +kernel)
  exact ⟨last, run, calm_undisturbed _ _ run (by decide +kernel)⟩

/-- A tick whose second function raises, and the call of the first one in the next tick. -/
def raisingTick : List (Action Int Nat) :=
  [.tick 1, .visit 1, .call 0 [] true [] [⟨1, 1, .plain 1⟩, ⟨2, 2, .plain 2⟩],
    .call 0 [] false [] [], .tick 2, .visit 1,
    .call 0 [] true [2] [⟨1, 1, .plain 1⟩, ⟨2, 2, .plain 2⟩]]

/-- A function that raises leaves the third one uncalled in its tick; the first one is called
again from its old registration, and as a periodic one has a second chain from then on.
-/
theorem raisingTick_disturbs
    : (¬ ∀ (content : List (Int × Callback Int Nat)) (now : Int) (actions : List (Action Int Nat))
          (last : State Int Nat),
        exec State.step (State.holding content now) actions = some last → last.Undisturbed)
      ∧ (exec State.step
            (State.holding [(1, .periodic 1 0), (1, .plain 1), (1, .plain 2)] 0) raisingTick).map
          (fun state => (state.log.map fun (t, entry) => (t, entry.id),
            state.queue.map fun (key, entry) => (key, entry.origin)))
        = some ([(1, 0), (1, 1), (2, 0)], [(1, 0), (1, 1), (1, 2), (2, 0), (3, 0)]) := by
  have shape := show (exec State.step
      (State.holding [(1, .periodic 1 0), (1, .plain 1), (1, .plain 2)] 0) raisingTick).map
      (fun state => (state.log.map fun (t, entry) => (t, entry.id),
        state.queue.map fun (key, entry) => (key, entry.origin)))
    = some ([(1, 0), (1, 1), (2, 0)], [(1, 0), (1, 1), (1, 2), (2, 0), (3, 0)])
    from by decide +kernel
  refine ⟨fun undisturbed => ?_, shape⟩
  obtain ⟨last, run, same⟩ := Option.map_eq_some_iff.mp shape
  have ids : last.log.map (fun pair => pair.2.id) = [0, 1, 0] := by
    simpa [Function.comp_def] using congrArg (List.map Prod.snd) (congrArg Prod.fst same)
  have once := (undisturbed _ _ _ _ run).once
  rw [ids] at once
  exact absurd once (by decide)

end Labrea.TimerQueue
