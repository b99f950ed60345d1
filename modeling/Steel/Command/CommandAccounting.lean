import Steel.Command.CommandExecution

/-! # Every queued action is executed or cancelled once

The entries of a queue are held by the queue itself, by the list of new commands, or they have been
executed or cancelled.
-/

namespace Steel

open List Option

variable {S : Type} {R : CommandRuntime S} {T : ExecutionTypes}

/-- Terminal commands are only scheduled for executors that are not custom. -/
def EntryAction.Schedulable (X : ExecutionRuntime R T) : EntryAction R T → Prop
  | .resume action => action.Schedulable X
  | .executeContinuation chain _ _ => ∀ executor, X.executor chain.executor ≠ .custom executor
  | .execute chain _ _ => ∀ executor, X.executor chain.executor ≠ .custom executor
  | _ => True

/-- A custom command may perform an effect. -/
def ExecutionControl.Performs (effect : T.World → T.World) : ExecutionControl R T → Prop
  | .finish => False
  | .perform effect' next => effect' = effect ∨ ∃ world, (next world).Performs effect
  | .incrementCost next | .queueInitialCommand _ _ _ next | .queueNext _ next | .suspend _ next
  | .queueContexts _ _ _ _ next | .queueFallthrough next | .discardFrame next
  | .returnSuccess _ next | .returnFailure next => next.Performs effect

/-- What sources, modifiers, executors and custom actions do to the world while an action runs in
a frame. -/
inductive ExecutionRuntime.Effect (X : ExecutionRuntime R T) (frame : Frame T) :
    (T.World → T.World) → Prop
  | consumer (success : Bool) (result : ℤ) :
      Effect X frame (frame.returnValueConsumer.onResult success result)
  | callback (source : S) (success : Bool) (result : ℤ) :
      Effect X frame ((X.callback source).onResult success result)
  | handleError (source : S) (error : T.Error) (forked : Bool) :
      Effect X frame (X.handleError source error forked)
  | modifier {modifier apply} (h : X.modifier modifier = .standard apply)
      (context : CommandContext R) : Effect X frame fun world => (apply context world).2
  | executor {executor run} (h : X.executor executor = .standard run)
      (context : CommandContext R) : Effect X frame fun world => (run context world).2
  | suspended {executor run} (h : X.executor executor = .suspended run)
      (context : CommandContext R) : Effect X frame fun world => (run context world).2
  | customModifier {modifier program} (h : X.modifier modifier = .custom program)
      (originalSource : S) (sources : List S) (chain : SteelContextChain R)
      (modifiers : ChainModifiers) (effect : T.World → T.World)
      (heffect : (program originalSource sources chain modifiers frame).Performs effect) :
      Effect X frame effect
  | customExecutor {executor program} (h : X.executor executor = .custom program)
      (chain : SteelContextChain R) (modifiers : ChainModifiers) (source : S)
      (effect : T.World → T.World)
      (heffect : (program source chain modifiers frame).Performs effect) : Effect X frame effect
  | custom (action : T.CustomAction) (effect : T.World → T.World)
      (heffect : (X.executeCustom action frame).Performs effect) : Effect X frame effect

namespace CommandExecutionContext

/-- A call for queued work: an entry is executed or cancelled, and a suspension begins, is resumed
by its result, or is cancelled. -/
inductive Call where
  | execute (id : ℕ)
  | cancel (id : ℕ)
  | suspend
  | resume
  | release
  deriving DecidableEq

/-- The calls that lead from one context to another. The world changes by these calls, and by the
effects of an action only while one is running in its frame. -/
inductive Trace (X : ExecutionRuntime R T) : Option (Frame T) →
    CommandExecutionContext R T → List Call → CommandExecutionContext R T → Prop
  | refl {running} (context : CommandExecutionContext R T) : Trace X running context [] context
  | trans {running context next last calls calls'} (h : Trace X running context calls next)
      (h' : Trace X running next calls' last) : Trace X running context (calls ++ calls') last
  | adjust {running context} (quota depth : ℕ) (overflow : Bool) : Trace X running context []
        { context with
          commandQuota := quota
          currentFrameDepth := depth
          queueOverflow := overflow }
  | enter {running context} {entry : CommandQueueEntry R T} (hid : entry.id = context.queued) :
      Trace X running context []
        { context with
          queued := context.queued + 1
          newTopCommands := context.newTopCommands ++ [entry] }
  | refuse {running context} {entry : CommandQueueEntry R T} (hid : entry.id = context.queued) :
      Trace X running context [.cancel entry.id]
        { context with
          queued := context.queued + 1
          world := X.cancelAction entry.action context.world }
  | cancelFirst {running context entry commandQueue}
      (hqueue : context.commandQueue = entry :: commandQueue) :
      Trace X running context [.cancel entry.id]
        { context with
          commandQueue := commandQueue
          world := X.cancelAction entry.action context.world }
  | cancelNew {running context entry newTopCommands}
      (hnew : context.newTopCommands = entry :: newTopCommands) :
      Trace X running context [.cancel entry.id]
        { context with
          newTopCommands := newTopCommands
          world := X.cancelAction entry.action context.world }
  | effect {context frame effect} (h : X.Effect frame effect) :
      Trace X (some frame) context [] (context.updateWorld effect)
  | suspend {context frame} (hnone : context.suspension = none) (active : ActiveSuspension S T) :
      Trace X (some frame) context [.suspend] { context with suspension := some active }
  | push (context : CommandExecutionContext R T) : Trace X none context [] context.pushNewCommands
  | execute {context after entry commandQueue calls}
      (hqueue : context.commandQueue = entry :: commandQueue)
      (hexecute : CommandExecutionContext.execute X entry.frame entry.action
        { context with
          commandQueue := commandQueue
          currentFrameDepth := entry.frame.depth } = .ok after)
      (h : Trace X (some entry.frame) { context with
          commandQueue := commandQueue
          currentFrameDepth := entry.frame.depth } calls after) :
      Trace X none context (.execute entry.id :: calls) after
  | pending {context active suspension world} (hactive : context.suspension = some active)
      (hpoll : X.pollSuspension active.suspension context.world = (.pending suspension, world)) :
      Trace X none context []
        { context with world := world, suspension := some ⟨active.frame, suspension⟩ }
  | ready {context active action world calls} (hactive : context.suspension = some active)
      (hpoll : X.pollSuspension active.suspension context.world = (.ready action, world))
      (h : Trace X none { context with world := world, suspension := none } calls
        (queueNext X { context with world := world, suspension := none } active.frame
          (.resume action))) :
      Trace X none context (.resume :: calls)
        (queueNext X { context with world := world, suspension := none } active.frame
          (.resume action))
  | release {context active} (hactive : context.suspension = some active) :
      Trace X none context [.release]
        { context with
          suspension := none
          world := X.cancelSuspension active.suspension context.world }

/-- How often an entry waits in the queue. -/
def waiting (context : CommandExecutionContext R T) (id : ℕ) : ℕ :=
  (context.commandQueue.map (·.id)).count id + (context.newTopCommands.map (·.id)).count id

variable {X : ExecutionRuntime R T} {context : CommandExecutionContext R T} {frame : Frame T}
variable {running : Option (Frame T)} {entry : CommandQueueEntry R T} {calls : List Call}
variable {after last : CommandExecutionContext R T}

/-- An entry that is queued waits until it is executed or cancelled. -/
theorem Trace.once (h : Trace X running context calls after) (id : ℕ) :
    calls.count (.execute id) + calls.count (.cancel id) + after.waiting id +
        (if id < context.queued then 1 else 0) =
      context.waiting id + (if id < after.queued then 1 else 0) := by
  induction h with
  | refl context => simp
  | trans h h' ih ih' =>
    simp only [count_append]
    omega
  | adjust quota depth overflow => simp [waiting]
  | enter hid =>
    simp only [waiting, map_append, map_cons, map_nil, count_append, count_cons, count_nil, hid,
      beq_iff_eq]
    split_ifs <;> omega
  | refuse hid =>
    simp only [waiting, count_cons, count_nil, hid, beq_iff_eq, Call.cancel.injEq, reduceCtorEq,
      if_false]
    split_ifs <;> omega
  | cancelFirst hqueue =>
    simp only [waiting, hqueue, map_cons, count_cons, count_nil, beq_iff_eq, Call.cancel.injEq,
      reduceCtorEq, if_false]
    split_ifs <;> omega
  | cancelNew hnew =>
    simp only [waiting, hnew, map_cons, count_cons, count_nil, beq_iff_eq, Call.cancel.injEq,
      reduceCtorEq, if_false]
    split_ifs <;> omega
  | effect h =>
    simp only [count_nil, Nat.zero_add]
    rfl
  | suspend hnone active => simp [waiting]
  | push context =>
    rw [show context.pushNewCommands.queued = context.queued from rfl]
    simp only [waiting, pushNewCommands, map_append, map_nil, count_append, count_nil]
    omega
  | execute hqueue hexecute h ih =>
    simp only [waiting, hqueue, map_cons, count_cons, beq_iff_eq, Call.execute.injEq,
      reduceCtorEq, if_false] at ih ⊢
    split_ifs at ih ⊢ <;> omega
  | pending hactive hpoll => simp [waiting]
  | ready hactive hpoll h ih => simpa [waiting] using ih
  | release hactive => simp [waiting]

/-- A suspension that has begun is active until it is resumed or cancelled. -/
theorem Trace.suspensions (h : Trace X running context calls after) :
    calls.count .suspend + context.suspension.isSome.toNat =
      calls.count .resume + calls.count .release + after.suspension.isSome.toNat := by
  induction h with
  | trans h h' ih ih' =>
    simp only [count_append]
    omega
  | suspend hnone active => simp [hnone]
  | execute hqueue hexecute h ih => simpa [count_cons] using ih
  | pending hactive hpoll => simp [hactive]
  | ready hactive hpoll h ih =>
    simp only [isSome_none, Bool.toNat_false] at ih
    simp only [count_cons, hactive, isSome_some, Bool.toNat_true]
    simp
    omega
  | release hactive => simp [hactive]
  | _ => simp [updateWorld, pushNewCommands]

def Schedulable (X : ExecutionRuntime R T) (context : CommandExecutionContext R T) : Prop :=
  ∀ entry ∈ context.commandQueue ++ context.newTopCommands, entry.action.Schedulable X

/-- A context that follows another one by calls. -/
structure Leads (X : ExecutionRuntime R T) (running : Option (Frame T))
    (context after : CommandExecutionContext R T) : Prop where
  trace : ∃ calls, Trace X running context calls after
  schedulable : context.Schedulable X → after.Schedulable X

/-- What operations on the queue keep while an action is executed. -/
structure Keeps (X : ExecutionRuntime R T) (running : Option (Frame T))
    (context after : CommandExecutionContext R T) : Prop extends Leads X running context after where
  suspension : after.suspension = context.suspension

theorem Leads.trans (h : Leads X running context after)
    (h' : Leads X running after last) : Leads X running context last := by
  obtain ⟨calls, htrace⟩ := h.trace
  obtain ⟨calls', htrace'⟩ := h'.trace
  exact ⟨⟨_, htrace.trans htrace'⟩, fun hs => h'.schedulable (h.schedulable hs)⟩

theorem Keeps.refl (context : CommandExecutionContext R T) : Keeps X running context context :=
  ⟨⟨⟨[], .refl context⟩, fun h => h⟩, rfl⟩

theorem Keeps.trans (h : Keeps X running context after)
    (h' : Keeps X running after last) : Keeps X running context last :=
  ⟨h.toLeads.trans h'.toLeads, h'.suspension.trans h.suspension⟩

theorem updateWorld_keeps {effect : T.World → T.World} (h : X.Effect frame effect) :
    Keeps X (some frame) context (context.updateWorld effect) :=
  ⟨⟨⟨[], .effect h⟩, fun h => h⟩, rfl⟩

theorem adjust_keeps (quota depth : ℕ) (overflow : Bool) :
    Keeps X running context { context with
      commandQuota := quota
      currentFrameDepth := depth
      queueOverflow := overflow } :=
  ⟨⟨⟨[], .adjust quota depth overflow⟩, fun h => h⟩, rfl⟩

theorem incrementCost_keeps : Keeps X running context context.incrementCost :=
  adjust_keeps (context.commandQuota - 1) context.currentFrameDepth context.queueOverflow

theorem foldl_cancelEntry (entries : List (CommandQueueEntry R T)) :
    ∀ context : CommandExecutionContext R T,
      entries.foldl (cancelEntry X) context =
        { context with world :=
          entries.foldl (fun world entry => X.cancelAction entry.action world) context.world } := by
  induction entries with
  | nil => exact fun context => rfl
  | cons entry entries ih => exact fun context => ih (cancelEntry X context entry)

theorem trace_cancel_front {rest : List (CommandQueueEntry R T)}
    (front : List (CommandQueueEntry R T)) :
    ∀ context : CommandExecutionContext R T, context.commandQueue = front ++ rest →
      Trace X running context (front.map fun entry => .cancel entry.id)
        (front.foldl (cancelEntry X) { context with commandQueue := rest }) := by
  induction front with
  | nil =>
    rintro context rfl
    exact .refl context
  | cons entry front ih => exact fun context h => .trans (.cancelFirst h) (ih _ rfl)

theorem trace_cancel_new (newTopCommands : List (CommandQueueEntry R T)) :
    ∀ context : CommandExecutionContext R T, context.newTopCommands = newTopCommands →
      Trace X running context (newTopCommands.map fun entry => .cancel entry.id)
        (newTopCommands.foldl (cancelEntry X) { context with newTopCommands := [] }) := by
  induction newTopCommands with
  | nil =>
    intro context h
    have hsame : { context with newTopCommands := [] } = context := by rw [← h]
    rw [map_nil, foldl_nil, hsame]
    exact .refl context
  | cons entry newTopCommands ih => exact fun context h => .trans (.cancelNew h) (ih _ rfl)

theorem cancel_front_keeps {front rest : List (CommandQueueEntry R T)}
    (h : context.commandQueue = front ++ rest) :
    Keeps X running context
      (front.foldl (cancelEntry X) { context with commandQueue := rest }) := by
  refine ⟨⟨⟨_, trace_cancel_front front context h⟩, fun hs entry hentry => hs entry ?_⟩, ?_⟩
  · rw [foldl_cancelEntry] at hentry
    simp only [h, mem_append] at hentry ⊢
    tauto
  · rw [foldl_cancelEntry]

theorem cancelCommandQueue_keeps : Keeps X running context (cancelCommandQueue X context) :=
  cancel_front_keeps (append_nil _).symm

theorem cancelNewTopCommands_keeps : Keeps X running context (cancelNewTopCommands X context) := by
  refine ⟨⟨⟨_, trace_cancel_new _ context rfl⟩, fun hs entry hentry => hs entry ?_⟩, ?_⟩
  · rw [cancelNewTopCommands, foldl_cancelEntry] at hentry
    exact mem_append_left _ (by simpa using hentry)
  · rw [cancelNewTopCommands, foldl_cancelEntry]

@[simp] theorem cancelCommandQueue_commandQueue :
    (cancelCommandQueue X context).commandQueue = [] := by
  rw [cancelCommandQueue, foldl_cancelEntry]

@[simp] theorem cancelNewTopCommands_newTopCommands :
    (cancelNewTopCommands X context).newTopCommands = [] := by
  rw [cancelNewTopCommands, foldl_cancelEntry]

@[simp] theorem cancelNewTopCommands_commandQueue :
    (cancelNewTopCommands X context).commandQueue = context.commandQueue := by
  rw [cancelNewTopCommands, foldl_cancelEntry]

theorem discard_keeps : Keeps X running context (discard X context frame) := by
  unfold discard
  split
  · exact cancelCommandQueue_keeps
  · exact cancel_front_keeps (takeWhile_append_dropWhile).symm

theorem refuse_keeps (hid : entry.id = context.queued) :
    Keeps X running context
      { cancelEntry X context entry with queued := context.queued + 1 } :=
  ⟨⟨⟨_, .refuse hid⟩, fun h => h⟩, rfl⟩

theorem enter_keeps (hid : entry.id = context.queued) (hentry : entry.action.Schedulable X) :
    Keeps X running context { context with
      queued := context.queued + 1
      newTopCommands := context.newTopCommands ++ [entry] } := by
  refine ⟨⟨⟨_, .enter hid⟩, fun h other hother => ?_⟩, rfl⟩
  simp only [mem_append, mem_singleton] at hother
  rcases hother with hother | hother | rfl
  · exact h other (mem_append_left _ hother)
  · exact h other (mem_append_right _ hother)
  · exact hentry

variable {action : EntryAction R T}

theorem queueNext_keeps (h : action.Schedulable X) :
    Keeps X running context (queueNext X context frame action) := by
  unfold queueNext
  set entry : CommandQueueEntry R T := ⟨context.queued, frame, action⟩
  dsimp only
  split
  · set full := cancelCommandQueue X (cancelNewTopCommands X { context with queueOverflow := true })
    have hkeeps : Keeps X running context full :=
      (adjust_keeps context.commandQuota context.currentFrameDepth true).trans
        (cancelNewTopCommands_keeps.trans cancelCommandQueue_keeps)
    have hfull : cancelCommandQueue X (cancelNewTopCommands X
        { context with queued := context.queued + 1, queueOverflow := true }) =
          { full with queued := context.queued + 1 } := by
      simp only [full, cancelCommandQueue, cancelNewTopCommands, foldl_cancelEntry]
    have hqueued : full.queued = context.queued := by
      simp only [full, cancelCommandQueue, cancelNewTopCommands, foldl_cancelEntry]
    have hoverflow : full.queueOverflow = true := by
      simp only [full, cancelCommandQueue, cancelNewTopCommands, foldl_cancelEntry]
    rw [hfull, if_pos hoverflow, ← hqueued]
    exact hkeeps.trans (refuse_keeps hqueued.symm)
  · split
    · exact refuse_keeps rfl
    · exact enter_keeps rfl h

variable (chain : SteelContextChain R)

theorem queueInitialCommand_keeps (source : S)
    (returnValueConsumer : CommandResultCallback T.World) :
    Keeps X running context (queueInitialCommand X context chain source returnValueConsumer) :=
  queueNext_keeps trivial

theorem runControl_keeps (program : ExecutionControl R T) :
    (∀ effect, program.Performs effect → X.Effect frame effect) →
      ∀ context, Keeps X (some frame) context (runControl X frame program context) := by
  induction program with
  | finish => exact fun _ => Keeps.refl
  | perform effect next ih =>
    exact fun h context => (updateWorld_keeps (h effect (.inl rfl))).trans
      (ih context.world (fun effect heffect => h effect (.inr ⟨_, heffect⟩)) _)
  | incrementCost next ih => exact fun h context => incrementCost_keeps.trans (ih h _)
  | queueInitialCommand chain source returnValueConsumer next ih =>
    exact fun h context => (queueInitialCommand_keeps chain source returnValueConsumer).trans
      (ih h _)
  | queueNext action next ih =>
    exact fun h context => (queueNext_keeps (by trivial)).trans (ih h _)
  | suspend suspension next ih =>
    exact fun h context => (queueNext_keeps (by trivial)).trans (ih h _)
  | queueContexts chain originalSource sources modifiers next ih =>
    exact fun h context => (queueNext_keeps (by trivial)).trans (ih h _)
  | queueFallthrough next ih =>
    exact fun h context => (queueNext_keeps (by trivial)).trans (ih h _)
  | discardFrame next ih => exact fun h context => discard_keeps.trans (ih h _)
  | returnSuccess result next ih =>
    exact fun h context => ((updateWorld_keeps (.consumer true result)).trans discard_keeps).trans
      (ih h _)
  | returnFailure next ih =>
    exact fun h context => ((updateWorld_keeps (.consumer false 0)).trans discard_keeps).trans
      (ih h _)

theorem scheduleExecutions_keeps {chain : SteelContextChain R} (sources : List S)
    (modifiers : ChainModifiers) (h : ∀ executor, X.executor chain.executor ≠ .custom executor) :
    Keeps X (some frame) context (scheduleExecutions X context frame chain sources modifiers) := by
  unfold scheduleExecutions
  split
  · exact .refl _
  · exact queueNext_keeps h
  · exact (queueNext_keeps (by exact h)).trans (queueNext_keeps (by exact h))
  · exact queueNext_keeps h

theorem outOfSources_keeps (modifiers : ChainModifiers) :
    Keeps X (some frame) context (outOfSources X context frame modifiers) := by
  unfold outOfSources
  split
  · exact queueNext_keeps trivial
  · exact .refl _

theorem foldl_runControl_keeps (program : S → ExecutionControl R T) (sources : List S)
    (h : ∀ source effect, (program source).Performs effect → X.Effect frame effect) :
    ∀ context, Keeps X (some frame) context
      (sources.foldl (fun context source => runControl X frame (program source) context)
        context) := by
  induction sources with
  | nil => exact Keeps.refl
  | cons source sources ih =>
    exact fun context => (runControl_keeps (program source) (h source) context).trans (ih _)

theorem buildTerminal_keeps (sources : List S) (modifiers : ChainModifiers) :
    Keeps X (some frame) context (buildTerminal X context frame chain sources modifiers) := by
  unfold buildTerminal
  split
  · exact outOfSources_keeps modifiers
  case _ first rest _ =>
    split
    case _ executor hexecutor =>
      exact foldl_runControl_keeps _ _ (.customExecutor hexecutor chain modifiers) context
    case _ hexecutor =>
      split
      · exact scheduleExecutions_keeps _ _ hexecutor
      · exact scheduleExecutions_keeps _ _ hexecutor

theorem applyModifier_keeps {modifier : R.Modifier}
    {apply : CommandContext R → T.World → Except T.Error (List S) × T.World}
    (h : X.modifier modifier = .standard apply) (template : CommandContext R) (originalSource : S)
    (modifiers : ChainModifiers) (sources : List S) :
    ∀ (nextSources : List S) (context : CommandExecutionContext R T),
      Keeps X (some frame) context { context with
        world := (applyModifier X apply template originalSource modifiers context.forkLimit sources
          nextSources context.world).2 } := by
  induction sources with
  | nil => exact fun _ => Keeps.refl
  | cons source sources ih =>
    intro nextSources context
    have hfirst : Keeps X (some frame) context
        { context with world := (apply (template.copyFor source) context.world).2 } :=
      updateWorld_keeps (.modifier h (template.copyFor source))
    rw [applyModifier]
    rcases happly : apply (template.copyFor source) context.world with ⟨_ | newSources, world⟩
    all_goals
      rw [happly] at hfirst
      dsimp only
      split
    · exact hfirst.trans (ih nextSources _)
    · exact hfirst.trans (updateWorld_keeps (.handleError ..))
    · exact hfirst.trans (updateWorld_keeps (.handleError ..))
    · exact hfirst.trans (ih _ _)

theorem buildStages_keeps {terminal : CommandContext R} {executor : R.Executor}
    (executor_eq : terminal.executor = some executor) (originalSource : S)
    (redirects : List (CommandContext R)) :
    ∀ (sources : List S) (modifiers : ChainModifiers) (context : CommandExecutionContext R T),
      Keeps X (some frame) context (buildStages X frame terminal executor executor_eq originalSource
        redirects sources modifiers context) := by
  induction redirects with
  | nil => exact fun sources modifiers context => buildTerminal_keeps _ sources modifiers
  | cons template redirects ih =>
    intro sources modifiers context
    rw [buildStages]
    split
    · exact outOfSources_keeps modifiers
    case _ first rest _ =>
      dsimp only
      generalize (if template.forks then modifiers.withForked else modifiers) = modifiers
      split
      case _ program hmodifier =>
        obtain ⟨modifier, -, hcustom⟩ := map_eq_some_iff.1 hmodifier
        exact runControl_keeps _
          (.customModifier hcustom originalSource (first :: rest) _ modifiers) context
      case _ apply hmodifier =>
        obtain ⟨modifier, -, hstandard⟩ := map_eq_some_iff.1 hmodifier
        have happly := incrementCost_keeps.trans (@applyModifier_keeps _ _ _ X frame _ _ hstandard
          template originalSource modifiers (first :: rest) [] context.incrementCost)
        split
        case _ heq =>
          rwa [heq] at happly
        case _ heq =>
          rw [heq] at happly
          exact happly.trans (ih _ _ _)
      · exact ih _ _ context

theorem completeCommandResult_keeps (source : S) (modifiers : ChainModifiers)
    (result : Except T.Error ℤ) : Keeps X (some frame) context
      (context.updateWorld (X.completeCommandResult source modifiers result)) := by
  cases result with
  | ok result => exact updateWorld_keeps (.callback source true result)
  | error error =>
    have hcallback : Keeps X (some frame) context _ :=
      updateWorld_keeps (.callback source false 0)
    unfold updateWorld ExecutionRuntime.completeCommandResult
    dsimp only
    split
    · exact hcallback.trans (updateWorld_keeps (.handleError source error false))
    · exact hcallback

theorem executeSource_keeps {chain : SteelContextChain R} (source : S) (modifiers : ChainModifiers)
    (h : ∀ executor, X.executor chain.executor ≠ .custom executor) :
    ∃ after, executeSource X context frame chain source modifiers = .ok after ∧
      Keeps X (some frame) context after := by
  unfold executeSource
  split
  · exact ⟨_, rfl, updateWorld_keeps (.callback source false 0)⟩
  · dsimp only
    split
    case _ executor hexecutor =>
      exact ⟨_, rfl, (incrementCost_keeps.trans (updateWorld_keeps (.executor hexecutor _))).trans
        (completeCommandResult_keeps source modifiers _)⟩
    case _ executor hexecutor =>
      have hrun : Keeps X (some frame) context { context.incrementCost with
          world := (executor (chain.terminal.copyFor source) context.incrementCost.world).2 } :=
        incrementCost_keeps.trans
          (updateWorld_keeps (.suspended hexecutor (chain.terminal.copyFor source)))
      split
      case _ heq =>
        rw [heq] at hrun
        exact ⟨_, rfl, hrun.trans (queueNext_keeps trivial)⟩
      case _ heq =>
        rw [heq] at hrun
        exact ⟨_, rfl, hrun.trans (completeCommandResult_keeps source modifiers _)⟩
    case _ executor hcustom => exact absurd hcustom (h executor)

theorem execute_leads (frame : Frame T) (action : EntryAction R T)
    (haction : action.Schedulable X) (hsuspension : context.suspension = none) :
    ∃ after, execute X frame action context = .ok after ∧
      Leads X (some frame) context after := by
  have hkeeps : ∀ {result : Except ExecutionPanic (CommandExecutionContext R T)},
      (∃ after, result = .ok after ∧ Keeps X (some frame) context after) →
      ∃ after, result = .ok after ∧ Leads X (some frame) context after := by
    rintro result ⟨after, hafter, hkeeps⟩
    exact ⟨after, hafter, hkeeps.toLeads⟩
  induction action with
  | resume action ih => exact ih haction
  | suspend suspension =>
    simp only [execute, hsuspension]
    exact ⟨_, rfl, ⟨_, .suspend hsuspension ⟨frame, suspension⟩⟩, fun h => h⟩
  | buildContexts chain originalSource sources modifiers =>
    exact hkeeps ⟨_, rfl, buildStages_keeps _ _ _ _ _ _⟩
  | executeContinuation chain sources modifiers =>
    apply hkeeps
    rw [execute.eq_def]
    dsimp only
    split
    · exact ⟨_, rfl, .refl _⟩
    · split
      · exact ⟨_, rfl, queueNext_keeps haction⟩
      · exact ⟨_, rfl, .trans (queueNext_keeps (by exact haction))
          (queueNext_keeps (by exact haction))⟩
  | execute chain source modifiers => exact hkeeps (executeSource_keeps source modifiers haction)
  | unavailable source =>
    exact hkeeps ⟨_, rfl, updateWorld_keeps (.callback source false 0)⟩
  | complete source modifiers result =>
    exact hkeeps ⟨_, rfl, completeCommandResult_keeps source modifiers result⟩
  | fallthrough =>
    exact hkeeps ⟨_, rfl, (updateWorld_keeps (.consumer false 0)).trans discard_keeps⟩
  | custom action => exact hkeeps ⟨_, rfl, runControl_keeps _ (.custom action) context⟩

@[simp] theorem pushNewCommands_suspension :
    context.pushNewCommands.suspension = context.suspension := rfl

theorem pushNewCommands_keeps : Keeps X none context context.pushNewCommands := by
  refine ⟨⟨⟨_, .push context⟩, fun h entry hentry => h entry ?_⟩, rfl⟩
  simp only [pushNewCommands, append_nil, mem_append] at hentry ⊢
  tauto

/-- The first entry of the queue is taken and executed. -/
theorem execute_first {commandQueue : List (CommandQueueEntry R T)} (h : context.Schedulable X)
    (hqueue : context.commandQueue = entry :: commandQueue)
    (hsuspension : context.suspension = none) :
    ∃ after, execute X entry.frame entry.action { context with
        commandQueue := commandQueue
        currentFrameDepth := entry.frame.depth } = .ok after ∧ Leads X none context after := by
  obtain ⟨after, hafter, ⟨calls, htrace⟩, hschedulable⟩ :=
    @execute_leads _ _ _ X { context with
      commandQueue := commandQueue
      currentFrameDepth := entry.frame.depth } entry.frame entry.action
      (h entry (by simp [hqueue])) hsuspension
  refine ⟨after, hafter, ⟨_, .execute hqueue hafter htrace⟩, fun _ => hschedulable ?_⟩
  intro other hother
  apply h other
  simp only [hqueue, mem_append, mem_cons] at hother ⊢
  tauto

/-- The assertions hold, and a result follows the context by calls. -/
def Ends (X : ExecutionRuntime R T) (context : CommandExecutionContext R T)
    (result : Except ExecutionPanic (Option (ExecutionStop × CommandExecutionContext R T))) :
    Prop :=
  ∃ value, result = .ok value ∧
    ∀ stop after, value = some (stop, after) → Leads X none context after

theorem ends_some {stop : ExecutionStop}
    (h : Leads X none context after) : Ends X context (.ok (some (stop, after))) := by
  refine ⟨_, rfl, ?_⟩
  rintro stop' after' ⟨⟩
  exact h

variable {result : Except ExecutionPanic (Option (ExecutionStop × CommandExecutionContext R T))}

theorem Ends.trans {next : CommandExecutionContext R T}
    (h : Leads X none context next) (h' : Ends X next result) : Ends X context result := by
  obtain ⟨value, hvalue, hends⟩ := h'
  exact ⟨value, hvalue, fun stop after hafter => h.trans (hends stop after hafter)⟩

theorem runLoop_ends (fuel : ℕ) :
    ∀ context : CommandExecutionContext R T, context.Schedulable X →
      context.suspension = none → Ends X context (runLoop X fuel context) := by
  induction fuel with
  | zero => exact fun context h hsuspension => ⟨none, rfl, by simp⟩
  | succ fuel ih =>
    intro context h hsuspension
    rw [runLoop]
    split
    · exact ends_some (Keeps.refl context).toLeads
    · split
      · exact ends_some (Keeps.refl context).toLeads
      case _ entry commandQueue hqueue =>
        obtain ⟨after, hafter, hleads⟩ := execute_first h hqueue hsuspension
        simp only [hafter, bind, Except.bind]
        split
        · exact ends_some hleads
        · split
          · exact ends_some hleads
          case _ hnone =>
            have hnext := hleads.trans pushNewCommands_keeps.toLeads
            exact .trans hnext (ih _ (hnext.schedulable h) (by simpa using hnone))

theorem run_ends (fuel : ℕ) (h : context.Schedulable X) : Ends X context (run X fuel context) := by
  unfold run
  split
  · exact ends_some (Keeps.refl context).toLeads
  case _ hnone =>
    split
    · exact ends_some (Keeps.refl context).toLeads
    · obtain ⟨value, hvalue, hends⟩ := Ends.trans pushNewCommands_keeps.toLeads
        (runLoop_ends fuel context.pushNewCommands (pushNewCommands_keeps.schedulable h)
          (by simpa using hnone))
      simp only [hvalue, bind, Except.bind]
      refine ⟨_, rfl, ?_⟩
      rintro stop after hsome
      obtain ⟨⟨stop', last⟩, hlast, heq⟩ := map_eq_some_iff.1 hsome
      cases heq
      exact (hends _ _ hlast).trans
        (adjust_keeps last.commandQuota 0 last.queueOverflow).toLeads

theorem pollSuspension_schedulable {suspension : CommandSuspension S T} {world after : T.World}
    (h : X.pollSuspension suspension world = (.ready action, after)) : action.Schedulable X := by
  unfold ExecutionRuntime.pollSuspension at h
  split at h
  · split at h
    · cases h
      trivial
    · split at h
      · cases h
      · cases h
        trivial
  · split at h
    · cases h
    · cases h
      trivial

theorem pollSuspension_ends (fuel : ℕ) (h : context.Schedulable X) :
    Ends X context (pollSuspension X fuel context) := by
  unfold pollSuspension
  split
  · exact run_ends fuel h
  case _ active hactive =>
    dsimp only
    split
    case _ suspension world hpoll =>
      exact ends_some ⟨⟨_, .pending hactive hpoll⟩, fun h => h⟩
    case _ action world hpoll =>
      have haction : action.Schedulable X := pollSuspension_schedulable hpoll
      obtain ⟨⟨calls, htrace⟩, hschedulable⟩ := (@queueNext_keeps _ _ _ X
        { context with world := world, suspension := none } active.frame none (.resume action)
        haction).toLeads
      exact .trans ⟨⟨_, .ready hactive hpoll htrace⟩, hschedulable⟩ (run_ends fuel (hschedulable h))

theorem cancel_leads (context : CommandExecutionContext R T) :
    Leads X none context (cancel X context) ∧ (cancel X context).commandQueue = [] ∧
      (cancel X context).newTopCommands = [] ∧ (cancel X context).suspension = none := by
  have hmain : ∀ next : CommandExecutionContext R T, next.suspension = none →
      let last := cancelNewTopCommands X (cancelCommandQueue X next)
      Leads X none next { last with queueOverflow := false, currentFrameDepth := 0 } ∧
        last.commandQueue = [] ∧ last.newTopCommands = [] ∧ last.suspension = none := by
    intro next hsuspension last
    have hlast : Keeps X none next last :=
      cancelCommandQueue_keeps.trans cancelNewTopCommands_keeps
    exact ⟨(hlast.trans (adjust_keeps last.commandQuota 0 false)).toLeads, by simp [last],
      by simp [last], hlast.suspension.trans hsuspension⟩
  unfold cancel
  split
  case _ hsuspension => exact hmain context hsuspension
  case _ active hactive =>
    obtain ⟨hleads, hrest⟩ := hmain { context with
      suspension := none
      world := X.cancelSuspension active.suspension context.world } rfl
    exact ⟨.trans ⟨⟨_, .release hactive⟩, fun h => h⟩ hleads, hrest⟩

/-- What is done with a context: its own operations, and what happens elsewhere in between. -/
inductive Operation (R : CommandRuntime S) (T : ExecutionTypes) where
  | queueInitialCommand (chain : SteelContextChain R) (source : S)
      (returnValueConsumer : CommandResultCallback T.World)
  | run (fuel : ℕ)
  | pollSuspension (fuel : ℕ)
  | cancel
  | elsewhere (effect : T.World → T.World)

/-- One operation. There is no result when a run takes more steps than its fuel. -/
def perform (X : ExecutionRuntime R T) (operation : Operation R T)
    (context : CommandExecutionContext R T) :
    Except ExecutionPanic (Option (CommandExecutionContext R T)) :=
  match operation with
  | .queueInitialCommand chain source returnValueConsumer =>
    pure (some (CommandExecutionContext.queueInitialCommand X context chain source
      returnValueConsumer))
  | .run fuel => (Option.map Prod.snd) <$> CommandExecutionContext.run X fuel context
  | .pollSuspension fuel =>
    (Option.map Prod.snd) <$> CommandExecutionContext.pollSuspension X fuel context
  | .cancel => pure (some (CommandExecutionContext.cancel X context))
  | .elsewhere effect => pure (some (context.updateWorld effect))

def performAll (X : ExecutionRuntime R T) : List (Operation R T) →
    CommandExecutionContext R T → Except ExecutionPanic (Option (CommandExecutionContext R T))
  | [], context => pure (some context)
  | operation :: operations, context => do
    match ← perform X operation context with
    | none => pure none
    | some context => performAll X operations context

def drop (X : ExecutionRuntime R T) (context : CommandExecutionContext R T) :
    CommandExecutionContext R T :=
  cancel X context

/-- The calls of a sequence of operations. -/
inductive Performs (X : ExecutionRuntime R T) : List (Operation R T) →
    CommandExecutionContext R T → List Call → CommandExecutionContext R T → Prop
  | nil (context : CommandExecutionContext R T) : Performs X [] context [] context
  | elsewhere {context after operations calls} (effect : T.World → T.World)
      (h : Performs X operations (context.updateWorld effect) calls after) :
      Performs X (.elsewhere effect :: operations) context calls after
  | cons {context next after operation operations calls calls'}
      (hperform : perform X operation context = .ok (some next))
      (h : Trace X none context calls next) (h' : Performs X operations next calls' after) :
      Performs X (operation :: operations) context (calls ++ calls') after

variable {operations : List (Operation R T)}

theorem Performs.once (h : Performs X operations context calls after) (id : ℕ) :
    calls.count (.execute id) + calls.count (.cancel id) + after.waiting id +
        (if id < context.queued then 1 else 0) =
      context.waiting id + (if id < after.queued then 1 else 0) := by
  induction h with
  | nil context => simp
  | elsewhere effect h ih => exact ih
  | cons hperform h h' ih =>
    have honce := h.once id
    simp only [count_append]
    omega

theorem Performs.suspensions (h : Performs X operations context calls after) :
    calls.count .suspend + context.suspension.isSome.toNat =
      calls.count .resume + calls.count .release + after.suspension.isSome.toNat := by
  induction h with
  | nil context => simp
  | elsewhere effect h ih => exact ih
  | cons hperform h h' ih =>
    have hsuspensions := h.suspensions
    simp only [count_append]
    omega

/-- The same for an operation, whose result need not say why it stopped. -/
def Gives (X : ExecutionRuntime R T) (context : CommandExecutionContext R T)
    (result : Except ExecutionPanic (Option (CommandExecutionContext R T))) : Prop :=
  ∃ value, result = .ok value ∧ ∀ after, value = some after → Leads X none context after

theorem gives_some (h : Leads X none context after) : Gives X context (.ok (some after)) := by
  refine ⟨_, rfl, ?_⟩
  rintro after' ⟨⟩
  exact h

theorem Ends.gives (h : Ends X context result) :
    Gives X context ((Option.map Prod.snd) <$> result) := by
  obtain ⟨value, rfl, hends⟩ := h
  refine ⟨_, rfl, ?_⟩
  rintro after hafter
  obtain ⟨⟨stop, last⟩, hlast, rfl⟩ := map_eq_some_iff.1 hafter
  exact hends stop last hlast

/-- All operations but the effects elsewhere lead on by calls. -/
theorem perform_leads (operation : Operation R T) (h : context.Schedulable X) :
    ∃ value, perform X operation context = .ok value ∧
      ∀ after, value = some after → after.Schedulable X ∧
        ∀ {operations calls last}, Performs X operations after calls last →
          ∃ calls', Performs X (operation :: operations) context calls' last := by
  by_cases helsewhere : ∃ effect, operation = .elsewhere effect
  · obtain ⟨effect, rfl⟩ := helsewhere
    refine ⟨_, rfl, ?_⟩
    rintro after ⟨⟩
    exact ⟨h, fun hperforms => ⟨_, .elsewhere effect hperforms⟩⟩
  · have hgives : Gives X context (perform X operation context) := by
      cases operation with
      | queueInitialCommand chain source returnValueConsumer =>
        exact gives_some (queueInitialCommand_keeps chain source returnValueConsumer).toLeads
      | run fuel => exact (run_ends fuel h).gives
      | pollSuspension fuel => exact (pollSuspension_ends fuel h).gives
      | cancel => exact gives_some (cancel_leads context).1
      | elsewhere effect => exact absurd ⟨effect, rfl⟩ helsewhere
    obtain ⟨value, hvalue, hends⟩ := hgives
    refine ⟨value, hvalue, ?_⟩
    rintro after rfl
    obtain ⟨⟨calls, htrace⟩, hschedulable⟩ := hends after rfl
    exact ⟨hschedulable h, fun hperforms => ⟨_, .cons hvalue htrace hperforms⟩⟩

/-- The operations lead to their result, and the drop of the context comes last. -/
theorem performAll_leads (operations : List (Operation R T)) :
    ∀ context : CommandExecutionContext R T, context.Schedulable X →
      ∃ value, performAll X operations context = .ok value ∧
        ∀ after, value = some after →
          ∃ calls, Performs X (operations ++ [.cancel]) context calls (drop X after) := by
  induction operations with
  | nil =>
    intro context h
    refine ⟨_, rfl, ?_⟩
    rintro after ⟨⟩
    obtain ⟨calls, htrace⟩ := (cancel_leads context).1.trace
    exact ⟨_, .cons rfl htrace (.nil _)⟩
  | cons operation operations ih =>
    intro context h
    obtain ⟨value, hvalue, hends⟩ := perform_leads operation h
    simp only [performAll, hvalue, bind, Except.bind]
    cases value with
    | none => exact ⟨none, rfl, by simp⟩
    | some next =>
      obtain ⟨hschedulable, hperforms⟩ := hends next rfl
      obtain ⟨last, hlast, hall⟩ := ih next hschedulable
      refine ⟨last, hlast, fun after hafter => ?_⟩
      obtain ⟨calls, hcalls⟩ := hall after hafter
      exact hperforms hcalls

/-- No sequence of operations trips an assertion. When the context is dropped at the end, every
action that was queued has been executed or cancelled by one call, and not both, and every
suspension that has begun has been resumed or cancelled. -/
theorem performAll_drop_once (X : ExecutionRuntime R T) (operations : List (Operation R T))
    (commandLimit forkLimit queueLimit : ℕ) (world : T.World) :
    ∃ value,
      performAll X operations (withQueueLimit commandLimit forkLimit queueLimit world) =
        .ok value ∧
      ∀ context, value = some context →
        (drop X context).suspension = none ∧ (drop X context).commandQueue = [] ∧
        (drop X context).newTopCommands = [] ∧
        ∃ calls, Performs X (operations ++ [.cancel])
            (withQueueLimit commandLimit forkLimit queueLimit world) calls (drop X context) ∧
          (∀ id, calls.count (.execute id) + calls.count (.cancel id) =
            if id < (drop X context).queued then 1 else 0) ∧
          calls.count .suspend = calls.count .resume + calls.count .release := by
  obtain ⟨value, hvalue, hends⟩ := performAll_leads (X := X) operations
    (withQueueLimit commandLimit forkLimit queueLimit world) (by simp [Schedulable, withQueueLimit])
  refine ⟨value, hvalue, fun context hcontext => ?_⟩
  obtain ⟨-, hqueue, hnew, hsuspension⟩ := cancel_leads (X := X) context
  obtain ⟨calls, hperforms⟩ := hends context hcontext
  refine ⟨hsuspension, hqueue, hnew, calls, hperforms, fun id => ?_, ?_⟩
  · have honce := hperforms.once id
    simpa [waiting, withQueueLimit, drop, hqueue, hnew] using honce
  · have hsuspensions := hperforms.suspensions
    simpa [withQueueLimit, drop, hsuspension] using hsuspensions

/-- Commands that wait for polls, with a world that records cancelled work and results. -/
abbrev waits : CommandRuntime Unit where
  Argument := Unit
  ArgumentValue := Unit
  Executor := Unit
  Modifier := Unit
  Predicate := Unit
  ErrorKind := Unit
  ProtocolArgument := Unit
  sameArgument _ _ := true
  parse _ reader _ := .ok ((), reader)
  holds _ _ := true
  protocolArgument _ := ()

abbrev waitTypes : ExecutionTypes := ⟨List ℤ, Unit, ℤ, Empty, Empty⟩

def waiter : ExecutionRuntime waits waitTypes where
  executionIsCurrent _ _ := true
  callback _ := some fun _ result world => world ++ [result]
  withCallback source _ := source
  handleError _ _ _ world := world
  forkLimitReached _ := ()
  modifier _ := .standard fun context world => (.ok [context.source], world)
  executor _ := .suspended fun _ world => (.ok 3, world)
  pollResult polls world :=
    (if polls = 0 then .ready (.ok 5) else .pending (polls - 1), world)
  cancelResult polls world := world ++ [-polls]
  orderResult _ := .source
  pollCustom suspension := nomatch suspension
  cancelCustomSuspension suspension := nomatch suspension
  orderCustom suspension := nomatch suspension
  executeCustom action := nomatch action
  customRunsAfterCommandLimit action := nomatch action
  cancelCustom action := nomatch action

def waitChain : SteelContextChain waits :=
  ⟨[], ⟨(), [], ⟨1, 0⟩, [], some (), [], ⟨1, 1, Nat.zero_lt_one⟩, none, none, false⟩, (), rfl⟩

def twoCommands : List (Operation waits waitTypes) :=
  [.queueInitialCommand waitChain () none, .run 5, .pollSuspension 5,
    .queueInitialCommand waitChain () none]

/-- The first command is polled once, and the second one never runs. -/
theorem performAll_drop_once_twoCommands :
    ∃ context, (drop waiter context).queued = 4 ∧ (drop waiter context).world = [-2] ∧
      ∃ calls : List Call, (∀ id, calls.count (.execute id) + calls.count (.cancel id) =
          if id < (drop waiter context).queued then 1 else 0) ∧
        calls.count .suspend = calls.count .resume + calls.count .release := by
  obtain ⟨value, hvalue, hall⟩ := performAll_drop_once waiter twoCommands 10 10 10 []
  have heval : (performAll waiter twoCommands (withQueueLimit 10 10 10 [])).toOption.map
      (fun value => value.map fun context =>
        ((drop waiter context).queued, (drop waiter context).world)) = some (some (4, [-2])) := by
    decide +kernel
  rw [hvalue] at heval
  obtain ⟨context, rfl, hdrop⟩ := map_eq_some_iff.1 (Option.some.inj heval)
  obtain ⟨-, -, -, calls, -, honce, hsuspensions⟩ := hall context rfl
  obtain ⟨hqueued, hworld⟩ := Prod.mk.inj hdrop
  exact ⟨context, hqueued, hworld, calls, honce, hsuspensions⟩

end CommandExecutionContext

end Steel
