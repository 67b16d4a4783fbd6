import Labrea.ThreadView

/-! Every run of labrea's code follows the locking discipline, over any call tree, from any
view in which its thread can reach it.
-/

namespace Labrea

open Traced.Monitor

variable {α : Type} {thread : Thread} {view : View}

/-- Locking a free mutex acquires it; a tainted thread may wait for its own. -/
theorem wp_lockMutex {site : Site} {post : Unit → Thread → View → Prop}
    (sync : Sync thread view) (unreleased : view.Unreleased) (openTo : site.openTo view.role)
    (free : view.held = none ∨ view.tainted)
    (acquired
      : view.held = none
        → post () { thread with ownsMutex := true } (view.next (.lock site)))
    : discipline.WP (lockMutex site) post thread view := by
  refine wp_bind (wp_emit ⟨free, unreleased, openTo⟩ (wp_bind (wp_get ?_)))
  have owns := sync.mutex
  cases held : view.held with
  | none =>
      rw [held, Option.isSome_none] at owns
      rw [owns]
      exact wp_modify (acquired held)
  | some other =>
      rw [held, Option.isSome_some] at owns
      rw [owns]
      exact wp_halt (free.resolve_left (by simp [held]))

theorem wp_unlockMutex {post : Unit → Thread → View → Prop}
    (held : view.held.isSome) (outside : view.OutsideLua)
    (released : post () { thread with ownsMutex := false } (view.next .unlock))
    : discipline.WP unlockMutex post thread view :=
  wp_bind (wp_emit ⟨held, outside⟩ (wp_modify released))

/-- A scope entered with the mutex free owns it throughout and leaves it free; a tainted
thread does not get past the entry.
-/
theorem wp_lockHolder {site : Site} {body : Run α} {post : α → Thread → View → Prop}
    (sync : Sync thread view) (unreleased : view.Unreleased) (openTo : site.openTo view.role)
    (free : view.held = none ∨ view.tainted)
    (inner
      : view.held = none
        → discipline.WP body
            (fun value next last =>
              last.held.isSome
              ∧ last.OutsideLua
              ∧ post value { next with ownsMutex := false } (last.next .unlock))
            { thread with ownsMutex := true } (view.next (.lock site)))
    : discipline.WP (lockHolder site body) post thread view := by
  refine wp_bind (wp_lockMutex sync unreleased openTo free fun held => wp_bind ?_)
  refine (inner held).mono ?_
  intro value next last ⟨stillHeld, outside, done⟩
  exact wp_bind (wp_unlockMutex stillHeld outside (wp_pure done))

/-- The window of an `AntiLockHolder`, entered with the mutex owned, has it free inside and
owned again after.
-/
theorem wp_antiLockHolder {body : Run α} {post : α → Thread → View → Prop}
    (held : view.held.isSome) (outside : view.OutsideLua)
    (inner
      : discipline.WP body
          (fun value next last =>
            Sync next last
            ∧ last.Unreleased
            ∧ last.held = none
            ∧ post value { next with ownsMutex := true } (last.next (.lock .antiLockHolder)))
          { thread with ownsMutex := false } (view.next .unlock))
    : discipline.WP (antiLockHolder body) post thread view := by
  refine wp_bind (wp_unlockMutex held outside (wp_bind ?_))
  refine inner.mono ?_
  intro value next last ⟨sync, unreleased, free, done⟩
  exact wp_bind (wp_lockMutex sync unreleased trivial (Or.inl free) fun _ => wp_pure done)

/-- `LuaInvocation` is ready exactly where the flag is unset, and then sets it. -/
theorem wp_luaInvocation {post : Bool → Thread → View → Prop} (sync : Sync thread view)
    (ready
      : view.armed = false
        → post true { thread with invocation := some true } { view with armed := true })
    (nested : view.armed = true → post false thread view)
    : discipline.WP luaInvocation post thread view := by
  have flag := sync.flag
  by_cases set : thread.invocation = some true
  · rw [set, Option.getD_some] at flag
    exact wp_of_ok (luaInvocation_nested set) trivial (nested flag.symm)
  · refine wp_of_ok (luaInvocation_ready set) ⟨trivial, trivial⟩ (ready ?_)
    match cell : thread.invocation with
    | none | some false => simpa [cell] using flag.symm
    | some true => exact absurd cell set

theorem stays_onlyIf {c : Prop} [Decidable c] {body : Run Unit} (sync : Sync thread view)
    (stays : c → Stays body thread view)
    : Stays (onlyIf c body) thread view :=
  wp_ite stays (fun _ => stays_pure sync)

/-- A lock taken where a hook call is entered is released where its scope ends. -/
theorem stays_lockHolder {site : Site} {body : Run α} (sync : Sync thread view)
    (entering : view.Entering) (openTo : site.openTo view.role)
    (inner
      : view.held = none
        → Stays body { thread with ownsMutex := true } (view.next (.lock site)))
    : Stays (lockHolder site body) thread view := by
  refine wp_lockHolder sync entering.unreleased openTo entering.free fun unheld => ?_
  refine (inner unheld).mono ?_
  intro value next last ⟨lastSync, kept⟩
  have outside := kept.outside (entering.outside unheld)
  refine ⟨kept.held, outside, ⟨rfl, lastSync.flag, lastSync.key⟩, ?_⟩
  exact ⟨kept.role, by simp [View.next, unheld], kept.armed, kept.frames, kept.registered,
    kept.tainted⟩

theorem stays_antiLockHolder {state : LState} {body : Run α} (owning : view.Owning state)
    (inner : Stays body { thread with ownsMutex := false } (view.next .unlock))
    : Stays (antiLockHolder body) thread view := by
  refine wp_antiLockHolder owning.held owning.outside (inner.mono ?_)
  intro value next last ⟨lastSync, kept⟩
  refine ⟨lastSync, kept.unreleased owning.unreleased, kept.held_eq_none.mpr rfl, ?_, ?_⟩
  · exact ⟨rfl, lastSync.flag, lastSync.key⟩
  · exact ⟨kept.role, owning.held.symm, kept.armed, kept.frames, kept.registered,
      kept.tainted⟩

theorem View.Entering.owning {site : Site} {state : LState} (entering : view.Entering)
    (unheld : view.held = none) (usable : state = .own → view.registered)
    : (view.next (.lock site)).Owning state :=
  ⟨rfl, entering.armed, usable, entering.unreleased, entering.outside unheld⟩

/-- `getLuaState` leaves the thread with a state of its own. -/
theorem wp_getLuaState (sync : Sync thread view) (entering : view.Entering)
    : discipline.WP getLuaState
        (fun _ next last => (Sync next last ∧ Kept view last) ∧ last.registered)
        thread view := by
  refine wp_bind (wp_get (wp_ite ?_ ?_))
  · intro missing
    have unregistered : view.registered = false := by
      rw [← sync.key]
      simpa using missing
    refine wp_lockHolder sync entering.unreleased trivial entering.free fun unheld => ?_
    refine wp_bind (wp_emit ⟨rfl, unregistered, Nat.one_pos⟩ (wp_modify ⟨rfl, ?_, ⟨?_, ?_⟩, rfl⟩))
    · exact entering.outside unheld
    · exact ⟨rfl, sync.flag, rfl⟩
    · exact ⟨rfl, by simp [View.next, unheld], rfl, rfl, fun _ => rfl, id⟩
  · intro present
    refine wp_pure ⟨⟨sync, Kept.refl view⟩, ?_⟩
    rw [← sync.key]
    simpa using present

/-- What runs under a `LuaStateHolder` owns the mutex. -/
theorem keeps_luaStateHolder {body : Run α} (keeps : Keeps (View.Owning .own) body)
    : Keeps View.Entering (luaStateHolder body) := by
  intro thread view sync entering
  refine wp_bind ((wp_getLuaState sync entering).mono ?_)
  intro _ next last ⟨⟨lastSync, kept⟩, registered⟩
  have lastEntering := kept.entering entering
  have holder : Stays (lockHolder .luaStateHolder body) next last := by
    refine stays_lockHolder lastSync lastEntering trivial fun unheld => ?_
    exact keeps _ _ ⟨rfl, lastSync.flag, lastSync.key⟩
      (lastEntering.owning unheld fun _ => registered)
  refine holder.mono ?_
  intro _ _ _ ⟨holderSync, holderKept⟩
  exact ⟨holderSync, kept.trans holderKept⟩

-----------------------------------------------------------------------------------------
-- Hook calls
-----------------------------------------------------------------------------------------

/-- A call of Lua code keeps the view its caller pushed the arguments in. -/
theorem stays_pcall {state : LState} {args : Nat} {body : Run (Except LuaValue LuaValue)}
    (sync : Sync thread view) (owning : view.Owning state)
    (allowed : view.allows (.pcall state args)) (keeps : Keeps (View.InLua state) body)
    : Stays (pcall state args body) thread view := by
  have bodyStays := keeps thread (view.next (.pcall state args))
    ⟨sync.mutex, sync.flag, sync.key⟩
    { held := owning.held
      armed := owning.armed
      usable := owning.usable
      unreleased := fun app frame member => by
        rcases List.mem_cons.mp member with rfl | older
        · rfl
        · exact owning.unreleased app frame older
      inside := rfl }
  refine wp_bind (wp_emit allowed (wp_bind (bodyStays.mono ?_)))
  intro result next last ⟨lastSync, kept⟩
  have held : last.held.isSome := kept.held ▸ owning.held
  have frames : last.frames = .lua state :: view.frames := kept.frames
  have inside : last.inside (.lua state) := by
    rw [View.inside, frames, List.head?_cons]
  have popped : Kept view { last with frames := last.frames.tail, pushed := 0, due := 0 } :=
    ⟨kept.role, kept.held, kept.armed, by rw [frames, List.tail_cons], kept.registered,
      kept.tainted⟩
  cases result with
  | ok value =>
      exact wp_bind (wp_emit ⟨held, inside⟩
        (wp_pure ⟨⟨lastSync.mutex, lastSync.flag, lastSync.key⟩, popped⟩))
  | error raised =>
      exact wp_bind (wp_emit ⟨held, inside⟩
        (wp_pure ⟨⟨lastSync.mutex, lastSync.flag, lastSync.key⟩, popped⟩))

theorem keeps_pcall_own {args : Nat} {body : Run (Except LuaValue LuaValue)}
    (keeps : Keeps (View.InLua .own) body)
    : Keeps (View.Owning .own) (pcall .own args body) :=
  fun _ _ sync owning => stays_pcall sync owning ⟨owning.held, owning.usable rfl⟩ keeps

/-- An event of labrea's own use of a thread's state. -/
theorem keeps_emit_own {event : Event} (same : ∀ view : View, view.next event = view)
    (allowed : ∀ view : View, view.held.isSome → view.registered → view.allows event)
    : Keeps (View.Owning .own) (Traced.Program.emit event) := by
  intro thread view sync owning
  refine stays_emit (allowed view owning.held (owning.usable rfl)) ?_ ?_
  · rw [same]
    exact sync
  · rw [same]
    exact Kept.refl view

theorem keeps_settop : Keeps (View.Owning .own) (Traced.Program.emit (.settop .own)) :=
  keeps_emit_own (fun _ => rfl) (fun _ held registered => ⟨held, registered⟩)

theorem keeps_push : Keeps (View.Owning .own) (Traced.Program.emit (.push .own)) :=
  keeps_emit_own (fun _ => rfl) (fun _ held registered => ⟨held, registered⟩)

theorem keeps_pushCall (args : List LuaValue) : Keeps (View.Owning .own) (pushCall args) := by
  intro thread view sync owning
  refine wp_each args ?_ ⟨sync, Kept.refl view⟩
  intro _ _ next last ⟨lastSync, kept⟩
  refine (keeps_push next last lastSync (kept.owning owning)).mono ?_
  intro _ _ _ ⟨pushedSync, pushedKept⟩
  exact ⟨pushedSync, kept.trans pushedKept⟩

/-- The environment's code keeps the views labrea enters it in. -/
structure Env.Keeps (env : Env) : Prop where
  global
    : ∀ kind fname f args, env.global kind fname = some f → Labrea.Keeps (View.InLua .own) (f args)
  code : ∀ addr words, Labrea.Keeps View.Ready (env.code addr words)
  report : ∀ kind, Labrea.Keeps View.Ready (env.report kind)

theorem keeps_runHook {kind : HookKind} {fname : CString} {f : LuaFunction}
    {args : List LuaValue} (keeps : Keeps (View.InLua .own) (f args))
    : Keeps (View.InLua .own) (runHook kind fname f args) := by
  intro thread view sync inLua
  refine stays_bind (stays_emit inLua.held sync (Kept.refl view)) ?_
  intro _ next last lastSync kept
  exact keeps next last lastSync (kept.inLua inLua)

theorem keeps_observerCall {env : Env} (keeps : env.Keeps) (kind : HookKind)
    (fname : CString) (args : List LuaValue)
    : Keeps View.Entering (observerCall env kind fname args) := by
  refine keeps_luaStateHolder fun thread view sync owning => ?_
  refine stays_bind (keeps_settop thread view sync owning) ?_
  intro _ thread view sync kept
  replace owning := kept.owning owning
  refine stays_bind (keeps_push thread view sync owning) ?_
  intro _ thread view sync kept
  replace owning := kept.owning owning
  split
  · exact stays_pure sync
  case _ f found =>
    refine stays_bind (keeps_pushCall args thread view sync owning) ?_
    intro _ thread view sync kept
    replace owning := kept.owning owning
    have hook : Keeps (View.InLua .own) (runHook kind fname f args) :=
      keeps_runHook (keeps.global kind fname f args found)
    refine stays_bind (keeps_pcall_own hook thread view sync owning) ?_
    intro result thread view sync kept
    cases result with
    | ok value => exact stays_pure sync
    | error raised =>
        exact keeps.report kind thread view sync (kept.owning owning).ready

theorem keeps_aroundSlot {env : Env} (keeps : env.Keeps) (result : Except LuaValue LuaValue)
    : Keeps (View.Owning .own) (aroundSlot env result) := by
  intro thread view sync owning
  cases result with
  | ok value => exact stays_pure sync
  | error raised =>
      refine stays_bind (keeps.report .around thread view sync owning.ready) ?_
      intro _ _ _ lastSync _
      exact stays_pure lastSync

theorem keeps_aroundCall {env : Env} (keeps : env.Keeps) (f : FType) (rv : CType)
    (args : List CValue)
    : Keeps View.Entering (aroundCall env f rv args) := by
  refine keeps_luaStateHolder fun thread view sync owning => ?_
  refine stays_bind (keeps_settop thread view sync owning) ?_
  intro _ thread view sync kept
  replace owning := kept.owning owning
  refine stays_bind (keeps_push thread view sync owning) ?_
  intro _ thread view sync kept
  replace owning := kept.owning owning
  refine stays_bind (keeps_pushCall _ thread view sync owning) ?_
  intro _ thread view sync kept
  replace owning := kept.owning owning
  refine stays_bind (keeps_pcall_own ?_ thread view sync owning) ?_
  · split
    · exact fun _ _ sync _ => stays_pure sync
    case _ f found => exact keeps_runHook (keeps.global .around _ f _ found)
  intro result thread view sync kept
  refine stays_bind (keeps_aroundSlot keeps result thread view sync (kept.owning owning)) ?_
  intro slot thread view sync kept
  exact wp_ite (fun _ => stays_pure sync) (fun _ => wp_halt trivial)

/-- A call of an original, which runs with the mutex as its caller left it. -/
theorem stays_original {β : Type} {caller : Caller} {addr : Addr} {words : List Word}
    {code : Run α} {result : α → β} (sync : Sync thread view)
    (allowed : view.allows (.original caller addr words))
    (ready : (view.next (.original caller addr words)).Ready)
    (keeps : Keeps View.Ready code)
    : Stays
        (do
          Traced.Program.emit (.original caller addr words)
          let value ← code
          Traced.Program.emit (.originalReturn caller)
          pure (result value))
        thread view := by
  have codeStays := keeps thread (view.next (.original caller addr words))
    ⟨sync.mutex, sync.flag, sync.key⟩ ready
  refine wp_bind (wp_emit allowed (wp_bind (codeStays.mono ?_)))
  intro value next last ⟨lastSync, kept⟩
  have frames : last.frames = .original caller :: view.frames := kept.frames
  have inside : last.inside (.original caller) := by
    rw [View.inside, frames, List.head?_cons]
  refine wp_bind (wp_emit inside (wp_pure ⟨?_, ?_⟩))
  · exact ⟨lastSync.mutex, lastSync.flag, lastSync.key⟩
  · exact ⟨kept.role, kept.held, kept.armed,
      (congrArg List.tail frames).trans List.tail_cons, kept.registered, kept.tainted⟩

/-- `invoke` inside the window of a `LuaInvocation`: an original that runs for a top-level
call needs the mutex free, one inside a hook window does not.
-/
theorem stays_invoke {env : Env} {caller : Caller} {ft : FType} {rv : CType}
    {args : List CValue} (sync : Sync thread view) (armed : view.armed)
    (free : view.role ≠ .timer → (Frame.original caller).released → view.held = none)
    (outside : view.held = none → view.OutsideLua) (keeps : env.Keeps)
    : Stays (invoke env caller ft rv args) thread view := by
  refine wp_ite (fun _ => ?_) (fun _ => wp_halt trivial)
  split
  · exact wp_halt trivial
  case _ forig _ =>
    refine stays_original sync free ?_ (keeps.code _ _)
    exact ⟨fun _ _ => armed, fun unarmed => absurd (armed.symm.trans unarmed) (by simp),
      fun unheld => View.outsideLua_original.mpr (outside unheld)⟩

/-- Where `wrapper` runs the hooks of an entry: the flag is set, and a thread that owns the
mutex is the timer thread, tainted if there are hooks to run.
-/
structure View.Window (func : FType) (view : View) : Prop where
  armed : view.armed
  app : view.role ≠ .timer → view.held = none
  free : func.hooked → view.held = none ∨ view.tainted
  unreleased : view.Unreleased
  outside : view.held = none → view.OutsideLua

theorem Kept.window {func : FType} {before after : View} (kept : Kept before after)
    (window : before.Window func)
    : after.Window func where
  armed := kept.armed ▸ window.armed
  app app := kept.held_eq_none.mpr (window.app (kept.role ▸ app))
  free hooked := kept.free (window.free hooked)
  unreleased := kept.unreleased window.unreleased
  outside unheld := kept.outside (window.outside (kept.held_eq_none.mp unheld))

theorem View.Window.entering {func : FType} (window : view.Window func)
    (hooked : func.hooked)
    : view.Entering :=
  ⟨window.free hooked, fun _ => window.armed, window.unreleased, window.outside⟩

theorem keeps_resultOf {env : Env} (keeps : env.Keeps) (func : FType) (rv : CType)
    (args : List CValue)
    : Keeps (View.Window func) (resultOf env func rv args) := by
  intro thread view sync window
  refine wp_ite (fun flagged => ?_) (fun _ => ?_)
  · have hooked : func.hooked := by simp [FType.hooked, flagged]
    exact keeps_aroundCall keeps func rv args thread view sync (window.entering hooked)
  · exact stays_invoke sync window.armed (fun app _ => window.app app)
      window.outside keeps

theorem keeps_hookedCall {env : Env} (keeps : env.Keeps) (func : FType) (name : CString)
    (rv : CType) (args : List CValue)
    : Keeps (View.Window func) (hookedCall env func name rv args) := by
  intro thread view sync window
  refine stays_bind (stays_onlyIf sync fun flagged => ?before) ?_
  case before =>
    have hooked : func.hooked := by simp [FType.hooked, flagged]
    exact keeps_observerCall keeps _ _ _ thread view sync (window.entering hooked)
  intro _ thread view sync kept
  replace window := kept.window window
  refine stays_bind (keeps_resultOf keeps func rv args thread view sync window) ?_
  intro result thread view sync kept
  replace window := kept.window window
  refine stays_bind (stays_onlyIf sync fun flagged => ?after) ?_
  case after =>
    have hooked : func.hooked := by simp [FType.hooked, flagged]
    exact keeps_observerCall keeps _ _ _ thread view sync (window.entering hooked)
  intro _ _ _ sync _
  exact stays_pure sync

theorem View.Ready.window {view : View} (ready : view.Ready) (unarmed : view.armed = false)
    (func : FType)
    : { view.next (.enter func) with armed := true }.Window func where
  armed := rfl
  app app := by
    by_contra held
    have armed := ready.armed app (Option.isSome_iff_ne_none.mpr held)
    exact absurd (armed.symm.trans unarmed) (by simp)
  free hooked := by
    cases held : view.held <;> simp [View.next, View.taints, held, unarmed, hooked]
  unreleased := ready.unreleased unarmed
  outside := ready.outside

/-- A hooked call keeps every view it can be made in: a nested one runs its original inside
the window of the outer call, and any other opens a window of its own and closes it.
-/
theorem keeps_wrapper {env : Env} (keeps : env.Keeps) (func : FType) (name : CString)
    (rv : CType) (args : List CValue)
    : Keeps View.Ready (wrapper env func name rv args) := by
  intro thread view sync ready
  have entered : Sync thread (view.next (.enter func)) := ⟨sync.mutex, sync.flag, sync.key⟩
  refine wp_bind (wp_emit ready.armed (wp_bind (wp_luaInvocation entered ?_ ?_)))
  · intro unarmed
    have hooked := keeps_hookedCall keeps func name rv args
      { thread with invocation := some true } { view.next (.enter func) with armed := true }
      ⟨sync.mutex, rfl, sync.key⟩ (ready.window unarmed func)
    refine wp_bind (hooked.mono ?_)
    intro result next last ends
    obtain ⟨lastSync, kept⟩ := ends
    refine wp_bind (wp_bind (wp_emit trivial (wp_modify (wp_pure ⟨?_, ?_⟩))))
    · exact ⟨lastSync.mutex, rfl, lastSync.key⟩
    · exact ⟨kept.role, kept.held, unarmed.symm, kept.frames, kept.registered,
        fun tainted => kept.tainted (by simp [View.next, tainted])⟩
  · intro armed
    refine (stays_invoke entered armed (fun _ released => absurd released (by decide))
      ready.outside keeps).mono ?_
    intro _ next last ends
    obtain ⟨lastSync, kept⟩ := ends
    exact ⟨lastSync, kept.role, kept.held, kept.armed, kept.frames, kept.registered,
      fun tainted => kept.tainted (by simp [View.next, tainted])⟩

/-- A script function is entered from Lua code and owns the mutex. -/
theorem View.InLua.owning {state : LState} (inLua : view.InLua state)
    : (view.next (.ccall state)).Owning state where
  held := inLua.held
  armed := inLua.armed
  usable := inLua.usable
  unreleased app frame member := by
    rcases List.mem_cons.mp member with rfl | older
    · rfl
    · exact inLua.unreleased app frame older
  outside := View.outsideLua_ccall

/-- The return of a script function leads back to the Lua code that called it. -/
theorem wp_creturn {state : LState} {base : View} {post : Unit → Thread → View → Prop}
    (inLua : base.InLua state) (sync : Sync thread view)
    (kept : Kept (base.next (.ccall state)) view)
    (returned : ∀ last, Sync thread last → Kept base last → post () thread last)
    : discipline.WP (Traced.Program.emit (.creturn state)) post thread view := by
  have frames : view.frames = .ccall state :: base.frames := kept.frames
  have inside : view.inside (.ccall state) := by
    rw [View.inside, frames, List.head?_cons]
  refine wp_emit ⟨kept.held ▸ inLua.held, inside⟩ (returned _ ?_ ?_)
  · exact ⟨sync.mutex, sync.flag, sync.key⟩
  · exact ⟨kept.role, kept.held, kept.armed,
      (congrArg List.tail frames).trans List.tail_cons, kept.registered, kept.tainted⟩

theorem keeps_doUsleep {state : LState} (stack : List LuaValue)
    : Keeps (View.InLua state) (doUsleep state stack) := by
  intro thread view sync inLua
  refine wp_bind (wp_emit ⟨inLua.held, inLua.inside⟩ (wp_bind ?_))
  have called : Sync thread (view.next (.ccall state)) := ⟨sync.mutex, sync.flag, sync.key⟩
  refine (stays_onlyIf called fun _ => stays_antiLockHolder inLua.owning ?_).mono ?_
  · refine stays_emit trivial ⟨rfl, sync.flag, sync.key⟩ (Kept.refl _)
  · intro _ _ _ ⟨lastSync, kept⟩
    exact wp_creturn inLua lastSync kept fun _ returned back => ⟨returned, back⟩

/-- Where Lua code has released the mutex for an original that a script invokes. -/
theorem View.InLua.ready_script {state : LState} {addr : Addr} {words : List Word}
    (inLua : view.InLua state)
    : (((view.next (.ccall state)).next .unlock).next (.original .script addr words)).Ready
    where
  armed _ held := absurd held (by simp [View.next])
  unreleased unarmed app := by
    have armed : view.armed := inLua.armed app
    exact absurd (armed.symm.trans unarmed) (by simp)
  outside _ := View.outsideLua_original.mpr View.outsideLua_ccall

theorem stays_abstractInvoke {state : LState} {base : View}
    {code : Addr → List Word → Run Word} {fun' : FType} {args : List (BitVec 64)}
    (inLua : base.InLua state)
    (sync : Sync thread ((base.next (.ccall state)).next .unlock))
    (keeps : ∀ addr words, Keeps View.Ready (code addr words))
    : Stays (abstractInvoke code fun' args) thread
        ((base.next (.ccall state)).next .unlock) := by
  refine wp_ite (fun _ => ?_) (fun _ => wp_halt trivial)
  split
  case _ invoker orig _ _ =>
    split
    case _ words _ =>
      exact stays_original sync (fun _ _ => rfl) inLua.ready_script (keeps orig words)
    · exact wp_halt trivial
  · exact wp_halt trivial

theorem keeps_doInvoke {functions : List FType} {code : Addr → List Word → Run Word}
    {state : LState} (stack : List LuaValue)
    (keeps : ∀ addr words, Keeps View.Ready (code addr words))
    : Keeps (View.InLua state) (doInvoke functions code state stack) := by
  intro thread view sync inLua
  refine wp_bind (wp_emit ⟨inLua.held, inLua.inside⟩ ?_)
  have released : Sync { thread with ownsMutex := false }
      ((view.next (.ccall state)).next .unlock) := ⟨rfl, sync.flag, sync.key⟩
  refine wp_ite (fun _ => wp_halt trivial) (fun _ => ?_)
  split
  · exact wp_halt trivial
  refine wp_ite (fun _ => wp_halt trivial) (fun _ => ?_)
  refine wp_ite (fun _ => wp_halt trivial) (fun _ => wp_bind ?_)
  refine (stays_antiLockHolder inLua.owning
    (stays_abstractInvoke inLua released keeps)).mono ?_
  intro rv next last ⟨lastSync, kept⟩
  have held : last.held.isSome := kept.held ▸ inLua.held
  have inside : last.inside (.ccall state) := by
    rw [View.inside, kept.frames]
    rfl
  have result : last.allows (.settop state) ∧ last.allows (.push state) := by
    cases state with
    | own =>
        have registered := kept.registered (inLua.usable rfl)
        exact ⟨⟨held, registered⟩, held, registered⟩
    | proto => exact ⟨⟨held, inside⟩, held, Or.inl inside⟩
  have pushed : Sync next (last.next (.push state)) ∧ Kept last (last.next (.push state)) := by
    cases state with
    | own => exact ⟨lastSync, Kept.refl last⟩
    | proto => exact ⟨⟨lastSync.mutex, lastSync.flag, lastSync.key⟩, rfl, rfl, rfl, rfl, id, id⟩
  refine wp_bind (wp_emit result.1 (wp_bind (wp_emit result.2 (wp_bind ?_))))
  exact wp_creturn inLua pushed.1 (kept.trans pushed.2) fun _ returned back =>
    wp_pure ⟨returned, back⟩

-----------------------------------------------------------------------------------------
-- The timer thread and the exit handlers
-----------------------------------------------------------------------------------------

/-- A thread between its calls into labrea. -/
structure View.Idle (view : View) : Prop where
  held : view.held = none
  frames : view.frames = []

theorem View.Idle.unreleased (idle : view.Idle) : view.Unreleased := by
  intro _ frame member
  rw [idle.frames] at member
  exact nomatch member

theorem View.Idle.outside (idle : view.Idle) : view.OutsideLua := by
  intro state inside
  rw [idle.frames] at inside
  exact nomatch inside

theorem View.Idle.ready (idle : view.Idle) : view.Ready where
  armed _ held := absurd held (by simp [idle.held])
  unreleased _ := idle.unreleased
  outside _ := idle.outside

theorem View.Idle.entering (idle : view.Idle) (armed : view.role ≠ .timer → view.armed)
    : view.Entering :=
  ⟨Or.inl idle.held, armed, idle.unreleased, fun _ => idle.outside⟩

theorem Kept.idle {before after : View} (kept : Kept before after) (idle : before.Idle)
    : after.Idle :=
  ⟨kept.held_eq_none.mpr idle.held, kept.frames.trans idle.frames⟩

/-- Each push on `luaStateProto` is counted, by induction on what is pushed. -/
theorem wp_pushProto {site : Site} (calls : site.callsProto) (items : List Nat)
    {post : Unit → Thread → View → Prop} (held : view.held = some site)
    (empty : view.frames = []) (room : items.length ≤ view.due)
    (pushed
      : post () thread { view with
          pushed := view.pushed + items.length
          due := view.due - items.length })
    : discipline.WP (Traced.Program.each (fun _ => Traced.Program.emit (.push .proto)) items)
        post thread view := by
  induction items generalizing view with
  | nil => exact wp_pure pushed
  | cons item rest ih =>
      rw [List.length_cons] at room
      have allowed : view.allows (.push .proto) :=
        ⟨by simp [held], Or.inr ⟨empty, by omega, site, held, calls⟩⟩
      have later : rest.length ≤ (view.next (.push .proto)).due := Nat.le_sub_one_of_lt room
      refine wp_bind (wp_emit allowed (ih held empty later ?_))
      have count : view.pushed + (item :: rest).length = view.pushed + 1 + rest.length := by
        rw [List.length_cons]
        omega
      have left : view.due - (item :: rest).length = view.due - 1 - rest.length := by
        rw [List.length_cons]
        omega
      rw [count, left] at pushed
      exact pushed

theorem stays_callProto {site : Site} {args : Nat} {body : Run (Except LuaValue LuaValue)}
    {report : Run Unit} (calls : site.callsProto) (sync : Sync thread view)
    (owning : view.Owning .proto) (held : view.held = some site) (empty : view.frames = [])
    (fresh : view.pushed = 0) (room : args + 1 ≤ view.due)
    (keeps : Keeps (View.InLua .proto) body) (reports : Keeps View.Ready report)
    : Stays (callProto args body report) thread view := by
  have first : 0 < view.due := by omega
  have rest : (List.range args).length ≤ (view.next (.push .proto)).due := by
    rw [List.length_range]
    exact Nat.le_sub_one_of_lt room
  refine wp_bind (wp_emit ⟨owning.held, Or.inr ⟨empty, first, site, held, calls⟩⟩ (wp_bind ?_))
  refine wp_pushProto calls (List.range args) held empty rest (wp_bind ?_)
  have full : view.pushed + 1 + (List.range args).length = args + 1 := by
    rw [fresh, List.length_range]
    omega
  have called : Stays (pcall .proto args body) thread
      { view with
        pushed := view.pushed + 1 + (List.range args).length
        due := view.due - 1 - (List.range args).length } :=
    stays_pcall ⟨sync.mutex, sync.flag, sync.key⟩
      ⟨owning.held, owning.armed, owning.usable, owning.unreleased, owning.outside⟩
      ⟨⟨site, held, calls⟩, empty, full⟩ keeps
  refine called.mono ?_
  intro result next last ⟨lastSync, kept⟩
  have keptAll : Kept view last :=
    ⟨kept.role, kept.held, kept.armed, kept.frames, kept.registered, kept.tainted⟩
  cases result with
  | ok value => exact wp_pure ⟨lastSync, keptAll⟩
  | error raised =>
      refine (reports next last lastSync (keptAll.owning owning).ready).mono ?_
      intro _ _ _ ⟨reportSync, reportKept⟩
      exact ⟨reportSync, keptAll.trans reportKept⟩

/-- One round of the timer thread. -/
theorem stays_timerRound {periodic : Run (Except LuaValue LuaValue)} {report : Run Unit}
    (keeps : Keeps (View.InLua .proto) periodic) (reports : Keeps View.Ready report)
    (sync : Sync thread view) (idle : view.Idle) (timer : view.role = .timer)
    : Stays (timerRound periodic report) thread view := by
  refine stays_bind (stays_emit trivial sync (Kept.refl view)) ?_
  intro _ next last lastSync kept
  have entering := (kept.idle idle).entering fun app => absurd (kept.role.trans timer) app
  refine stays_lockHolder lastSync entering (kept.role.trans timer) fun unheld => ?_
  exact stays_callProto rfl ⟨rfl, lastSync.flag, lastSync.key⟩
    (entering.owning unheld (fun own => nomatch own)) rfl (kept.idle idle).frames rfl
    (Nat.le_refl 2) keeps reports

theorem stays_destroyScriptingState {exiting : Run (Except LuaValue LuaValue)}
    {report : Run Unit} (keeps : Keeps (View.InLua .proto) exiting)
    (reports : Keeps View.Ready report) (sync : Sync thread view) (idle : view.Idle)
    (exits : view.role = .exiting) (armed : view.armed)
    : Stays (destroyScriptingState exiting report) thread view := by
  have entering := idle.entering fun _ => armed
  refine stays_lockHolder sync entering exits fun unheld => ?_
  exact stays_callProto rfl ⟨rfl, sync.flag, sync.key⟩
    (entering.owning unheld (fun own => nomatch own)) rfl idle.frames rfl (Nat.le_refl 1)
    keeps reports

/-- The exit handlers. -/
theorem stays_labreaExit {exiting : Run (Except LuaValue LuaValue)} {report : Run Unit}
    (keeps : Keeps (View.InLua .proto) exiting) (reports : Keeps View.Ready report)
    (sync : Sync thread view) (idle : view.Idle) (exits : view.role = .exiting)
    : Stays (labreaExit exiting report) thread view := by
  refine wp_bind (wp_luaInvocation sync ?_ ?_)
  · intro unarmed
    have inner : Stays (destroyScriptingState exiting report)
        { thread with invocation := some true } { view with armed := true } :=
      stays_destroyScriptingState keeps reports ⟨sync.mutex, rfl, sync.key⟩
        ⟨idle.held, idle.frames⟩ exits rfl
    refine wp_bind (inner.mono ?_)
    intro _ next last ⟨lastSync, kept⟩
    refine wp_bind (wp_emit trivial (wp_modify ⟨?_, ?_⟩))
    · exact ⟨lastSync.mutex, rfl, lastSync.key⟩
    · exact ⟨kept.role, kept.held, unarmed.symm, kept.frames, kept.registered, kept.tainted⟩
  · intro armed
    refine stays_bind (stays_destroyScriptingState keeps reports sync idle exits armed) ?_
    intro _ _ _ lastSync _
    exact stays_onlyIf lastSync fun impossible => absurd impossible (by simp)

/-- A run of such code on an application thread without the mutex is accepted; it does not
wait for the mutex, and where it returns the mutex is unowned.
-/
theorem Keeps.ran_unowned {α : Type} {program : Run α} (keeps : Keeps View.Ready program)
    {thread : Thread} (unowned : thread.ownsMutex = false)
    : ∃ view : View, view.role ≠ .timer ∧ view.tainted = false ∧ view.held = none
        ∧ discipline.Accepts view (program thread).trace
        ∧ (∀ value next, (program thread).result = .ok (value, next)
            → next.ownsMutex = false
              ∧ (discipline.after view (program thread).trace).held = none)
        ∧ (program thread).result ≠ .error .deadlock := by
  let view : View :=
    ⟨.app, none, thread.invocation.getD false, thread.luaThread, [], 0, 0, false⟩
  have idle : view.Idle := ⟨rfl, rfl⟩
  have notTimer : view.role ≠ .timer := by simp [view]
  obtain ⟨accepted, ended⟩ := keeps thread view ⟨unowned, rfl, rfl⟩ idle.ready
  refine ⟨view, notTimer, rfl, rfl, accepted, ?_, ?_⟩
  · intro value next found
    rw [found] at ended
    obtain ⟨sync, kept⟩ := ended
    have free : (discipline.after view (program thread).trace).held.isSome = false :=
      kept.held
    exact ⟨sync.mutex.trans free, by simpa using free⟩
  · intro found
    rw [found] at ended
    have clean := untainted_after notTimer rfl accepted
    exact absurd (clean.symm.trans ended) (by simp)

/-- Code that can run on a thread without the mutex leaves it unowned where it returns, and
does not wait for it.
-/
theorem Keeps.unowned {α : Type} {program : Run α} (keeps : Keeps View.Ready program)
    {thread : Thread} (unowned : thread.ownsMutex = false)
    : match (program thread).result with
      | .ok (_, next) => next.ownsMutex = false
      | .error reason => reason ≠ .deadlock := by
  obtain ⟨_, _, _, _, _, returned, halted⟩ := keeps.ran_unowned unowned
  match found : (program thread).result with
  | .ok (value, next) => exact (returned value next found).1
  | .error reason =>
      rintro rfl
      exact halted found

theorem keeps_setErrno {entry : View → Prop} (errno : Option Int)
    : Keeps entry (setErrno errno) := by
  intro thread view sync _
  cases errno with
  | none => exact stays_pure sync
  | some e => exact wp_modify ⟨⟨sync.mutex, sync.flag, sync.key⟩, Kept.refl view⟩

theorem keeps_reportWith {calls : Run Unit} (keeps : Keeps View.Ready calls)
    : Keeps View.Ready (reportWith calls) := by
  intro thread view sync ready
  refine stays_bind (stays_emit trivial sync (Kept.refl view)) ?_
  intro _ next last lastSync kept
  exact keeps next last lastSync (kept.ready ready)

theorem keeps_originalWith {calls : Run Unit} {errno : Option Int} {ret : Word}
    (keeps : Keeps View.Ready calls)
    : Keeps View.Ready (originalWith calls errno ret) := by
  intro thread view sync ready
  refine stays_bind (keeps thread view sync ready) ?_
  intro _ next last lastSync kept
  refine stays_bind (keeps_setErrno errno next last lastSync (kept.ready ready)) ?_
  intro _ _ _ errnoSync _
  exact stays_pure errnoSync

theorem keeps_luaWith {state : LState} {steps : Run Unit}
    {result : Except LuaValue LuaValue} (keeps : Keeps (View.InLua state) steps)
    : Keeps (View.InLua state) (luaWith state steps result) := by
  intro thread view sync inLua
  refine stays_bind (stays_emit ⟨inLua.held, inLua.inside⟩ sync (Kept.refl view)) ?_
  intro _ next last lastSync kept
  refine stays_bind (keeps next last lastSync (kept.inLua inLua)) ?_
  intro _ _ _ stepsSync _
  exact stays_pure stepsSync

variable (functions : List FType)

mutual
/-- A hooked call keeps every view it can be made in, by induction on its tree. -/
theorem Call.keeps : ∀ call : Call, Keeps View.Ready (call.run functions)
  | .mk func name rv args before around after original reread => by
      refine keeps_wrapper ?_ func name rv args
      exact {
        global := fun kind _ f args found => by
          cases kind with
          | before => exact before.keeps_function f found args
          | around => exact around.keeps_function f found args
          | after => exact after.keeps_function f found args
        code := fun _ _ => original.keeps
        report := fun kind => by
          cases kind with
          | before => exact before.keeps_report
          | around => exact around.keeps_report
          | after => exact after.keeps_report }

theorem Global.keeps_function
    : ∀ (global : Global) (f : LuaFunction), global.function functions = some f
      → ∀ args, Keeps (View.InLua .own) (f args)
  | .nil _, _, found, _ => nomatch found
  | .value body, _, found, _ => by
      cases found
      exact body.keeps .own

theorem Global.keeps_report
    : ∀ global : Global, Keeps View.Ready (global.report functions)
  | .nil report => keeps_reportWith (keeps_runCalls report)
  | .value body => body.keeps_report

theorem Body.keeps (state : LState)
    : ∀ body : Body, Keeps (View.InLua state) (body.run functions state)
  | .returns steps _ => keeps_luaWith (keeps_runSteps state steps)
  | .raises steps _ _ => keeps_luaWith (keeps_runSteps state steps)

theorem Body.keeps_report : ∀ body : Body, Keeps View.Ready (body.report functions)
  | .returns _ _ => fun _ _ sync _ => stays_pure sync
  | .raises _ _ report => keeps_reportWith (keeps_runCalls report)

theorem LuaStep.keeps (state : LState)
    : ∀ step : LuaStep, Keeps (View.InLua state) (step.run functions state)
  | .library errno => fun _ _ sync inLua =>
      stays_bind (stays_emit ⟨inLua.held, inLua.inside⟩ sync (Kept.refl _))
        fun _ _ _ lastSync kept => keeps_setErrno errno _ _ lastSync (kept.inLua inLua)
  | .hooked call => fun _ _ sync inLua =>
      stays_bind (call.keeps _ _ sync inLua.ready) fun _ _ _ lastSync _ =>
        stays_pure lastSync
  | .usleep stack => keeps_doUsleep stack
  | .invoke stack original => fun _ _ sync inLua =>
      stays_bind (keeps_doInvoke stack (fun _ _ => original.keeps) _ _ sync inLua)
        fun _ _ _ lastSync _ => stays_pure lastSync

theorem Original.keeps : ∀ original : Original, Keeps View.Ready (original.run functions)
  | .mk calls _ _ => keeps_originalWith (keeps_runCalls calls)

theorem keeps_runSteps (state : LState)
    : ∀ steps : List LuaStep, Keeps (View.InLua state) (runSteps functions state steps)
  | [] => fun _ _ sync _ => stays_pure sync
  | step :: rest => fun _ _ sync inLua =>
      stays_bind (step.keeps state _ _ sync inLua) fun _ _ _ lastSync kept =>
        keeps_runSteps state rest _ _ lastSync (kept.inLua inLua)

theorem keeps_runCalls
    : ∀ calls : List Call, Keeps View.Ready (runCalls functions calls)
  | [] => fun _ _ sync _ => stays_pure sync
  | call :: rest => fun _ _ sync ready =>
      stays_bind (call.keeps _ _ sync ready) fun _ _ _ lastSync kept =>
        keeps_runCalls rest _ _ lastSync (kept.ready ready)
end

end Labrea
