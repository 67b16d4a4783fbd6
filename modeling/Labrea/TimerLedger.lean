import Mathlib.Algebra.Order.Group.Multiset
import Mathlib.Data.Int.Basic
import Mathlib.Logic.Relation
import Mathlib.Tactic.Linarith
import Mathlib.Tactic.Ring
import Labrea.TimerQueue

/-! What the timer is for: a ledger of functions that wait for their time and of those that have
been called at theirs.
-/

namespace Labrea.TimerQueue

variable {F : Type}

/-- The times of a request made at `s`; one of `labrea.schedule` has only the first. -/
def Request.time (s : ℤ) (request : Request ℤ F) (i : ℕ) : ℤ :=
  s + request.delay * (i + 1)

/-- The times of a request made at `s` that have come at `now`. -/
def Request.dueTimes (s now : ℤ) : Request ℤ F → List ℤ
  | .schedule t _ => if s + t ≤ now then [s + t] else []
  | .periodic period _ =>
      (List.range ((now - s) / period).toNat).map fun i : ℕ => s + period * (i + 1)

/-- The function of a request has been called at its times so far, and waits for the next one
unless it had only one.
-/
inductive Request.Course (s : ℤ) (request : Request ℤ F)
    : List (ℤ × Callback ℤ F) → Multiset (ℤ × Callback ℤ F) → Prop
  | waits (n : ℕ) (recurs : n = 0 ∨ ∃ period f, request = .periodic period f)
    : Course s request ((List.range n).map fun i => (request.time s i, request.callback))
        {(request.time s n, request.callback)}
  | done (once : ∃ t f, request = .schedule t f)
    : Course s request [(request.time s 0, request.callback)] 0

-----------------------------------------------------------------------------------------
-- Ledgers
-----------------------------------------------------------------------------------------

/-- The calls for a request, with the time of each. -/
def callsFor (origin : ℕ) (log : List (ℤ × Entry ℤ F)) : List (ℤ × Callback ℤ F) :=
  (log.filter fun pair => pair.2.origin = origin).map fun pair => (pair.1, pair.2.callback)

/-- What waits for a request, under its time. -/
def waitingFor (origin : ℕ) (live : Multiset (ℤ × Entry ℤ F)) : Multiset (ℤ × Callback ℤ F) :=
  (live.filter fun pair => pair.2.origin = origin).map fun pair => (pair.1, pair.2.callback)

section

variable {origin : ℕ} {log : List (ℤ × Entry ℤ F)} {live : Multiset (ℤ × Entry ℤ F)}
  {pair : ℤ × Entry ℤ F}

theorem callsFor_own (own : pair.2.origin = origin)
    : callsFor origin (log ++ [pair]) = callsFor origin log ++ [(pair.1, pair.2.callback)] := by
  simp [callsFor, own]

theorem callsFor_other (other : pair.2.origin ≠ origin)
    : callsFor origin (log ++ [pair]) = callsFor origin log := by
  simp [callsFor, other]

theorem callsFor_none (none : ∀ pair ∈ log, pair.2.origin ≠ origin)
    : callsFor origin log = [] := by
  simpa [callsFor] using none

theorem waitingFor_add (more : Multiset (ℤ × Entry ℤ F))
    : waitingFor origin (live + more) = waitingFor origin live + waitingFor origin more := by
  simp [waitingFor]

theorem waitingFor_own (own : pair.2.origin = origin)
    : waitingFor origin (pair ::ₘ live)
      = (pair.1, pair.2.callback) ::ₘ waitingFor origin live := by
  simp [waitingFor, own]

theorem waitingFor_other (other : pair.2.origin ≠ origin)
    : waitingFor origin (pair ::ₘ live) = waitingFor origin live := by
  simp [waitingFor, other]

theorem waitingFor_none (none : ∀ pair ∈ live, pair.2.origin ≠ origin)
    : waitingFor origin live = 0 := by
  simpa [waitingFor] using none

end

/-- Functions that wait under their times, functions called with the time of each, and requests
with the time of each, in the numbers given out so far.
-/
structure Ledger (F : Type) where
  live : Multiset (ℤ × Entry ℤ F)
  log : List (ℤ × Entry ℤ F)
  registered : List (ℕ × ℤ × Request ℤ F)
  issued : ℕ
  now : ℤ

/-- A request is made. -/
def Ledger.register (ledger : Ledger F) (request : Request ℤ F) : Ledger F :=
  { ledger with
    live :=
      (request.delay + ledger.now, ⟨ledger.issued, ledger.issued, request.callback⟩)
        ::ₘ ledger.live
    registered := ledger.registered ++ [(ledger.issued, ledger.now, request)]
    issued := ledger.issued + 1 }

/-- A function is called, and its renewal joins the rest. -/
def Ledger.call (ledger : Ledger F) (entry : Entry ℤ F) (rest : Multiset (ℤ × Entry ℤ F))
    : Ledger F :=
  { ledger with
    live := rest + (entry.renewal ledger.now ledger.issued true : Multiset (ℤ × Entry ℤ F))
    log := ledger.log ++ [(ledger.now, entry)]
    issued := ledger.issued + (entry.renewal ledger.now ledger.issued true).length }

/-- Requests are for later, functions are called at their time, and time passes over none. -/
inductive Ledger.Step : Ledger F → Ledger F → Prop
  | register (ledger : Ledger F) (request : Request ℤ F) (later : 0 < request.delay)
    : Step ledger (ledger.register request)
  | call (ledger : Ledger F) (entry : Entry ℤ F) (rest : Multiset (ℤ × Entry ℤ F))
      (waits : ledger.live = (ledger.now, entry) ::ₘ rest)
    : Step ledger (ledger.call entry rest)
  | advance (ledger : Ledger F) (t : ℤ) (ahead : ledger.now ≤ t)
      (none : ∀ pair ∈ ledger.live, t ≤ pair.1)
    : Step ledger { ledger with now := t }

/-- Before any request. -/
def Ledger.empty : Ledger F := ⟨0, [], [], 0, 0⟩

/-- Every function called or waiting is one of a request, and each request is on its course. -/
structure Ledger.Kept (ledger : Ledger F) : Prop where
  distinct : (ledger.registered.map Prod.fst).Nodup
  issued : ∀ registration ∈ ledger.registered, registration.1 < ledger.issued
  owned
    : ∀ pair ∈ ledger.live, ∃ registration ∈ ledger.registered,
        registration.1 = pair.2.origin
  logged
    : ∀ pair ∈ ledger.log, pair.1 ≤ ledger.now
        ∧ ∃ registration ∈ ledger.registered, registration.1 = pair.2.origin
  courses
    : ∀ registration ∈ ledger.registered,
        0 < registration.2.2.delay
        ∧ registration.2.2.Course registration.2.1 (callsFor registration.1 ledger.log)
            (waitingFor registration.1 ledger.live)

variable {ledger next : Ledger F}

theorem Ledger.kept_empty : (Ledger.empty : Ledger F).Kept :=
  ⟨List.nodup_nil, by simp [empty], by simp [empty], by simp [empty], by simp [empty]⟩

/-- Nothing is called or waits under a number not given out yet. -/
theorem Ledger.Kept.fresh (kept : ledger.Kept)
    : callsFor ledger.issued ledger.log = [] ∧ waitingFor ledger.issued ledger.live = 0 := by
  constructor
  · refine callsFor_none fun pair member => ?_
    obtain ⟨-, registration, registered, owner⟩ := kept.logged pair member
    exact (owner ▸ kept.issued registration registered).ne
  · refine waitingFor_none fun pair member => ?_
    obtain ⟨registration, registered, owner⟩ := kept.owned pair member
    exact (owner ▸ kept.issued registration registered).ne

/-- A new request has no call yet, and its function waits for the first time. -/
theorem Ledger.Kept.register (kept : ledger.Kept) {request : Request ℤ F}
    (later : 0 < request.delay)
    : (ledger.register request).Kept := by
  refine ⟨?_, ?_, ?_, ?_, ?_⟩
  · rw [Ledger.register, List.map_append, List.nodup_append]
    refine ⟨kept.distinct, List.nodup_singleton _, fun number old other new => ?_⟩
    obtain ⟨registration, registered, rfl⟩ := List.mem_map.mp old
    rw [List.mem_singleton.mp new]
    exact (kept.issued registration registered).ne
  · intro registration member
    rcases List.mem_append.mp member with old | new
    · exact Nat.lt_succ_of_lt (kept.issued registration old)
    · rw [List.mem_singleton.mp new]
      exact Nat.lt_succ_self _
  · intro pair member
    rcases Multiset.mem_cons.mp member with rfl | old
    · exact ⟨_, List.mem_append_right _ (List.mem_singleton_self _), rfl⟩
    · obtain ⟨registration, registered, owner⟩ := kept.owned pair old
      exact ⟨registration, List.mem_append_left _ registered, owner⟩
  · intro pair member
    obtain ⟨past, registration, registered, owner⟩ := kept.logged pair member
    exact ⟨past, registration, List.mem_append_left _ registered, owner⟩
  · intro registration member
    rcases List.mem_append.mp member with old | new
    · obtain ⟨positive, course⟩ := kept.courses registration old
      rw [Ledger.register, waitingFor_other (kept.issued registration old).ne']
      exact ⟨positive, course⟩
    · obtain ⟨called, waiting⟩ := kept.fresh
      obtain rfl := List.mem_singleton.mp new
      refine ⟨later, ?_⟩
      have first : request.delay + ledger.now = request.time ledger.now 0 := by
        rw [Request.time]
        ring
      change request.Course ledger.now (callsFor ledger.issued ledger.log)
        (waitingFor ledger.issued (_ ::ₘ ledger.live))
      rw [called, waitingFor_own (by rfl), waiting, first]
      exact .waits 0 (Or.inl rfl)

/-- A renewal is one for the same request. -/
theorem Entry.renewal_origin (entry : Entry ℤ F) (now : ℤ) (issued : ℕ) (returns : Bool)
    : ∀ pair ∈ entry.renewal now issued returns, pair.2.origin = entry.origin := by
  rcases entry.renewal_cases now issued returns with none | ⟨period, f, -, -, renewed⟩
  · simp [none]
  · simp [renewed]

/-- Only the function of a request waits for it. -/
theorem Request.Course.callback_eq {s t : ℤ} {request : Request ℤ F} {callback : Callback ℤ F}
    {calls : List (ℤ × Callback ℤ F)} {rest : Multiset (ℤ × Callback ℤ F)}
    (course : request.Course s calls ((t, callback) ::ₘ rest))
    : callback = request.callback := by
  generalize inTime : (t, callback) ::ₘ rest = waiting at course
  cases course with
  | done once => exact absurd inTime (Multiset.cons_ne_zero)
  | waits n recurs =>
      have same := ((Multiset.singleton_eq_cons_iff rest).mp inTime.symm).1
      exact (Prod.mk.inj same).2.symm

/-- A call at the time that a request waits for is the next of its course: one of
`labrea.periodic` waits again a period later.
-/
theorem Request.Course.called {s now : ℤ} {request : Request ℤ F}
    {calls : List (ℤ × Callback ℤ F)} {rest : Multiset (ℤ × Callback ℤ F)} {entry : Entry ℤ F}
    (issued : ℕ) (course : request.Course s calls ((now, entry.callback) ::ₘ rest))
    : request.Course s (calls ++ [(now, entry.callback)])
        (rest + waitingFor entry.origin (entry.renewal now issued true : List _)) := by
  obtain ⟨id, origin, callback⟩ := entry
  generalize inTime : (now, callback) ::ₘ rest = waiting at course
  cases course with
  | done once => exact absurd inTime (Multiset.cons_ne_zero)
  | waits n recurs =>
      obtain ⟨same, rfl⟩ := (Multiset.singleton_eq_cons_iff rest).mp inTime.symm
      obtain ⟨rfl, rfl⟩ := Prod.mk.inj same
      cases request with
      | schedule t f =>
          rcases recurs with rfl | ⟨period, other, isPeriodic⟩
          · exact .done ⟨t, f, rfl⟩
          · exact nomatch isPeriodic
      | periodic period f =>
          have again : Request.time s (.periodic period f) (n + 1)
              = period + Request.time s (.periodic period f) n := by
            simp only [Request.time, Request.delay]
            push_cast
            ring
          have course : (Request.periodic period f).Course s _ _ :=
            .waits (n + 1) (Or.inr ⟨period, f, rfl⟩)
          rw [List.range_succ, List.map_append, again] at course
          simpa [waitingFor, Entry.renewal, Request.callback] using course

/-- A call comes at the time its request waits for. Witness: by cases on its course. -/
theorem Ledger.Kept.call (kept : ledger.Kept) {entry : Entry ℤ F}
    {rest : Multiset (ℤ × Entry ℤ F)} (waits : ledger.live = (ledger.now, entry) ::ₘ rest)
    : (ledger.call entry rest).Kept := by
  have live {pair : ℤ × Entry ℤ F} (member : pair ∈ rest) : pair ∈ ledger.live :=
    waits ▸ Multiset.mem_cons_of_mem member
  obtain ⟨owner, registered, own⟩ :=
    kept.owned (ledger.now, entry) (waits ▸ Multiset.mem_cons_self _ _)
  refine ⟨kept.distinct, fun registration member => ?_, ?_, ?_, ?_⟩
  · exact Nat.lt_add_right _ (kept.issued registration member)
  · intro pair member
    rcases Multiset.mem_add.mp member with old | renewed
    · exact kept.owned pair (live old)
    · exact ⟨owner, registered, own.trans (entry.renewal_origin _ _ _ pair renewed).symm⟩
  · intro pair member
    rcases List.mem_append.mp member with old | new
    · exact kept.logged pair old
    · rw [List.mem_singleton.mp new]
      exact ⟨le_rfl, owner, registered, own⟩
  · intro registration member
    obtain ⟨positive, course⟩ := kept.courses registration member
    refine ⟨positive, ?_⟩
    rw [Ledger.call]
    rw [waits] at course
    by_cases same : entry.origin = registration.1
    · rw [waitingFor_own same] at course
      rw [callsFor_own same, waitingFor_add, ← same]
      exact same ▸ course.called ledger.issued
    · rw [waitingFor_other same] at course
      have none : waitingFor registration.1
          (entry.renewal ledger.now ledger.issued true : List _) = 0 :=
        waitingFor_none fun pair renewed =>
          (entry.renewal_origin _ _ _ pair (Multiset.mem_coe.mp renewed)).trans_ne same
      rw [callsFor_other same, waitingFor_add, none, add_zero]
      exact course

theorem Ledger.Kept.advance (kept : ledger.Kept) {t : ℤ} (ahead : ledger.now ≤ t)
    : Ledger.Kept { ledger with now := t } :=
  { kept with
    logged := fun pair member => (kept.logged pair member).imp_left fun past => past.trans ahead }

theorem Ledger.Step.kept (step : ledger.Step next) (kept : ledger.Kept) : next.Kept := by
  cases step with
  | register request later => exact kept.register later
  | call entry rest waits => exact kept.call waits
  | advance t ahead none => exact kept.advance ahead

/-- Every ledger of a run keeps its requests on their courses, by induction on the run. -/
theorem Ledger.kept_of_steps (steps : Relation.ReflTransGen Ledger.Step Ledger.empty ledger)
    : ledger.Kept := by
  induction steps with
  | refl => exact Ledger.kept_empty
  | tail _ step ih => exact step.kept ih

/-- The calls on a course are the first of the times that have come, and all of them if what
waits is for later.
-/
theorem Request.Course.calls_dueTimes {s now : ℤ} {request : Request ℤ F}
    {calls : List (ℤ × Callback ℤ F)} {waiting : Multiset (ℤ × Callback ℤ F)}
    (course : request.Course s calls waiting) (positive : 0 < request.delay)
    (past : ∀ pair ∈ calls, pair.1 ≤ now)
    : calls <+: (request.dueTimes s now).map (fun time => (time, request.callback))
      ∧ ((∀ pair ∈ waiting, now < pair.1)
        → calls = (request.dueTimes s now).map fun time => (time, request.callback)) := by
  cases course with
  | done once =>
      obtain ⟨t, f, rfl⟩ := once
      have first : s + t ≤ now := by simpa [Request.time, Request.delay] using past
      have same : [(Request.time s (.schedule t f) 0, Request.callback (.schedule t f))]
          = ((Request.schedule t f).dueTimes s now).map fun time =>
            (time, Request.callback (.schedule t f)) := by
        simp [Request.dueTimes, first, Request.time, Request.delay]
      exact ⟨same ▸ List.prefix_rfl, fun _ => same⟩
  | waits n recurs =>
      cases request with
      | schedule t f =>
          rcases recurs with rfl | ⟨period, other, isPeriodic⟩
          case inr => exact nomatch isPeriodic
          refine ⟨List.nil_prefix, fun later => ?_⟩
          have first : now < s + t := by simpa [Request.time, Request.delay] using later
          simp [Request.dueTimes, first]
      | periodic period f =>
          change 0 < period at positive
          have due : ((Request.periodic period f).dueTimes s now).map
                (fun time => (time, Request.callback (.periodic period f)))
              = (List.range ((now - s) / period).toNat).map fun i =>
                (Request.time s (.periodic period f) i, Request.callback (.periodic period f)) := by
            rw [Request.dueTimes, List.map_map]
            rfl
          have bound : n ≤ ((now - s) / period).toNat := by
            cases n with
            | zero => exact Nat.zero_le _
            | succ n =>
                have last := past _ (List.mem_map.mpr ⟨n, List.self_mem_range_succ, rfl⟩)
                have count : ((n + 1 : ℕ) : ℤ) ≤ (now - s) / period := by
                  rw [Int.le_ediv_iff_mul_le positive]
                  simp only [Request.time, Request.delay] at last
                  push_cast
                  linarith
                omega
          rw [due]
          constructor
          · have first : List.range n <+: List.range ((now - s) / period).toNat :=
              List.prefix_iff_eq_take.mpr (by simp [bound])
            exact first.map _
          · intro later
            have next := later _ (Multiset.mem_singleton_self _)
            have count : (now - s) / period < n + 1 := by
              rw [Int.ediv_lt_iff_lt_mul positive]
              simp only [Request.time, Request.delay] at next
              linarith
            rw [show ((now - s) / period).toNat = n by omega]

/-- What waits is the function of a request for later. -/
theorem Ledger.Kept.periods (kept : ledger.Kept) {pair : ℤ × Entry ℤ F} (live : pair ∈ ledger.live)
    {period : ℤ} {f : F} (periodic : pair.2.callback = .periodic period f)
    : 0 < period := by
  obtain ⟨⟨origin, s, request⟩, registered, owner⟩ := kept.owned pair live
  obtain ⟨positive, course⟩ := kept.courses _ registered
  obtain ⟨rest, split⟩ := Multiset.exists_cons_of_mem live
  rw [split, waitingFor_own owner.symm, periodic] at course
  have same := course.callback_eq
  cases request with
  | schedule t g => exact nomatch same
  | periodic other g =>
      cases same
      exact positive

/-- A request has been called at the first of its times that have come, and at all of them if
everything that waits is for later.
-/
theorem Ledger.Kept.calls_dueTimes (kept : ledger.Kept) {registration : ℕ × ℤ × Request ℤ F}
    (registered : registration ∈ ledger.registered)
    : callsFor registration.1 ledger.log
        <+: (registration.2.2.dueTimes registration.2.1 ledger.now).map
          (fun time => (time, registration.2.2.callback))
      ∧ ((∀ pair ∈ ledger.live, ledger.now < pair.1)
        → callsFor registration.1 ledger.log
          = (registration.2.2.dueTimes registration.2.1 ledger.now).map fun time =>
            (time, registration.2.2.callback)) := by
  obtain ⟨positive, course⟩ := kept.courses registration registered
  have past : ∀ pair ∈ callsFor registration.1 ledger.log, pair.1 ≤ ledger.now := by
    intro pair member
    obtain ⟨logged, inLog, rfl⟩ := List.mem_map.mp member
    exact (kept.logged logged (List.mem_of_mem_filter inLog)).1
  obtain ⟨first, all⟩ := course.calls_dueTimes positive past
  refine ⟨first, fun later => all fun pair member => ?_⟩
  obtain ⟨waiting, isLive, rfl⟩ := Multiset.mem_map.mp member
  exact later waiting (Multiset.mem_of_mem_filter isLive)

end Labrea.TimerQueue
