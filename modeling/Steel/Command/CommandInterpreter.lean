import Steel.Command.CommandExecution
import Steel.Command.CommandRegistration

/-! # The queue runs a command like nested loops

A chain with standard modifiers and standard or suspended executors means two nested loops: every
stage is applied to each source in turn, and the command is then executed for each source that is
left, to its end.
-/

namespace Steel

open List

variable {S : Type} {R : CommandRuntime S} {T : ExecutionTypes}

/-- What the rest of the server does before each poll of a suspension. -/
abbrev PollSchedule (T : ExecutionTypes) := List (T.World → T.World)

namespace ExecutionRuntime

variable (X : ExecutionRuntime R T)

inductive Awaited (T : ExecutionTypes) where
  | ready (result : Except T.Error ℤ) (schedule : PollSchedule T) (world : T.World)
  | waiting (world : T.World)

/-- Waits for the result of a command. There is none when its source is gone. -/
def awaitResult (source : S) : T.ResultSuspension → PollSchedule T → T.World →
    Option (Awaited T)
  | _, [], world => some (.waiting world)
  | suspension, elsewhere :: schedule, world =>
    if !X.executionIsCurrent source (elsewhere world) then none
    else
      match X.pollResult suspension (elsewhere world) with
      | (.pending suspension, world) => awaitResult source suspension schedule world
      | (.ready result, world) => some (.ready result schedule world)

/-- How far a command has come: to its end, or to a suspension after the last poll. -/
inductive Progress (T : ExecutionTypes) where
  | completed (commandQuota : ℕ) (schedule : PollSchedule T) (world : T.World)
  | suspended (world : T.World)

/-- The inner loop: the command is executed for each source, and its result is reported. It
has no value when the command limit is reached or a source is gone. -/
def executeSources (terminal : CommandContext R) (executor : R.Executor)
    (modifiers : ChainModifiers) : List S → ℕ → PollSchedule T → T.World → Option (Progress T)
  | [], commandQuota, schedule, world => some (.completed commandQuota schedule world)
  | source :: sources, commandQuota, schedule, world =>
    if !X.executionIsCurrent source world || commandQuota ≤ 1 then none
    else
      match X.executor executor with
      | .standard run =>
        let (result, world) := run (terminal.copyFor source) world
        executeSources terminal executor modifiers sources (commandQuota - 1) schedule
          (X.completeCommandResult source modifiers result world)
      | .suspended run =>
        match run (terminal.copyFor source) world with
        | (.error error, world) =>
          executeSources terminal executor modifiers sources (commandQuota - 1) schedule
            (X.completeCommandResult source modifiers (.error error) world)
        | (.ok suspension, world) =>
          match X.awaitResult source suspension schedule world with
          | none => none
          | some (.waiting world) => some (.suspended world)
          | some (.ready result schedule world) =>
            executeSources terminal executor modifiers sources (commandQuota - 1) schedule
              (X.completeCommandResult source modifiers result world)
      | .custom _ => none

/-- The sources that a stage produces, whether an error has stopped it, and the world. -/
structure Stage (S : Type) (T : ExecutionTypes) where
  sources : List S
  stopped : Bool
  world : T.World

/-- One stage: the modifier is applied to each source. A source with an error is skipped when
the command is forked, and else stops the command. -/
def modifySources (modifier : CommandContext R → T.World → Except T.Error (List S) × T.World)
    (template : CommandContext R) (modifiers : ChainModifiers) : List S → T.World → Stage S T
  | [], world => ⟨[], false, world⟩
  | source :: sources, world =>
    match modifier (template.copyFor source) world with
    | (.error error, world) =>
      if modifiers.isForked then modifySources modifier template modifiers sources world
      else ⟨[], true, X.handleError source error false world⟩
    | (.ok newSources, world) =>
      let stage := modifySources modifier template modifiers sources world
      { stage with sources := newSources ++ stage.sources }

def interpretStages (terminal : CommandContext R) (executor : R.Executor) (forkLimit : ℕ) :
    List (CommandContext R) → List S → ChainModifiers → ℕ → PollSchedule T → T.World →
      Option (Progress T)
  | [], sources, modifiers, commandQuota, schedule, world =>
    if sources.all fun source => X.executionIsCurrent source world then
      X.executeSources terminal executor modifiers sources commandQuota schedule world
    else none
  | template :: redirects, sources, modifiers, commandQuota, schedule, world =>
    if !sources.all fun source => X.executionIsCurrent source world then none
    else if sources.isEmpty then some (.completed commandQuota schedule world)
    else
      let modifiers := if template.forks then modifiers.withForked else modifiers
      match template.modifier.map X.modifier with
      | none =>
        interpretStages terminal executor forkLimit redirects sources modifiers commandQuota
          schedule world
      | some (.standard modifier) =>
        let stage := X.modifySources modifier template modifiers sources world
        if commandQuota ≤ 1 || forkLimit ≤ stage.sources.length then none
        else if stage.stopped then some (.completed (commandQuota - 1) schedule stage.world)
        else
          interpretStages terminal executor forkLimit redirects stage.sources modifiers
            (commandQuota - 1) schedule stage.world
      | some (.custom _) => none

/-- A chain as nested loops. It has no value when a limit is reached, when a source does not
stay current, and when the chain has custom commands. -/
def interpret (chain : SteelContextChain R) (forkLimit : ℕ) (sources : List S)
    (modifiers : ChainModifiers) (commandQuota : ℕ) (schedule : PollSchedule T)
    (world : T.World) : Option (Progress T) :=
  X.interpretStages chain.terminal chain.executor forkLimit chain.redirects sources modifiers
    commandQuota schedule world

end ExecutionRuntime

open ExecutionRuntime

namespace CommandExecutionContext

/-- After a run, a suspended queue is polled as often as the schedule says. -/
def Continues (X : ExecutionRuntime R T) : PollSchedule T →
    ExecutionStop × CommandExecutionContext R T → ExecutionStop × CommandExecutionContext R T →
      Prop
  | elsewhere :: schedule, (.suspended, context), final => ∃ fuel result,
    pollSuspension X fuel (context.updateWorld elsewhere) = .ok (some result) ∧
      Continues X schedule result final
  | _, result, final => final = result

def Session (X : ExecutionRuntime R T) (schedule : PollSchedule T)
    (context : CommandExecutionContext R T)
    (final : ExecutionStop × CommandExecutionContext R T) : Prop :=
  ∃ fuel result, run X fuel context = .ok (some result) ∧ Continues X schedule result final

def LoopSession (X : ExecutionRuntime R T) (schedule : PollSchedule T)
    (context : CommandExecutionContext R T)
    (final : ExecutionStop × CommandExecutionContext R T) : Prop :=
  ∃ fuel stop last, runLoop X fuel context = .ok (some (stop, last)) ∧
    Continues X schedule (stop, { last with currentFrameDepth := 0 }) final

/-- Between two entries nothing is suspended and all new commands are in the queue. -/
structure Between (context : CommandExecutionContext R T)
    (commandQueue : List (CommandQueueEntry R T)) (commandQuota : ℕ) (world : T.World)
    (between : CommandExecutionContext R T) : Prop where
  commandQueue : between.commandQueue = commandQueue
  commandQuota : between.commandQuota = commandQuota
  world : between.world = world
  newTopCommands : between.newTopCommands = []
  suspension : between.suspension = none
  queueOverflow : between.queueOverflow = false
  forkLimit : between.forkLimit = context.forkLimit
  queueLimit : between.queueLimit = context.queueLimit

variable {X : ExecutionRuntime R T} {base context after : CommandExecutionContext R T}
variable {frame : Frame T} {commandQueue rest : List (CommandQueueEntry R T)}
variable {commandQuota : ℕ} {world : T.World} {schedule : PollSchedule T}

def popped (context : CommandExecutionContext R T) (entry : CommandQueueEntry R T)
    (commandQueue : List (CommandQueueEntry R T)) : CommandExecutionContext R T :=
  { context with
    commandQueue := commandQueue
    currentFrameDepth := entry.frame.depth }

variable {entry : CommandQueueEntry R T} {suspension : T.ResultSuspension} {source : S}
  {modifiers : ChainModifiers} {world' : T.World} {chain : SteelContextChain R} {sources : List S}
  {progress : ExecutionRuntime.Progress T}

theorem Between.popped (h : Between base (entry :: commandQueue) commandQuota world context) :
    Between base commandQueue commandQuota world (context.popped entry commandQueue) :=
  { h with commandQueue := rfl }

section

variable (h : Between base commandQueue commandQuota world context)

include h

theorem Between.updateWorld (effect : T.World → T.World) :
    Between base commandQueue commandQuota (effect world) (context.updateWorld effect) :=
  { h with world := congrArg effect h.world }

theorem Between.pushNewCommands :
    Between base commandQueue commandQuota world context.pushNewCommands :=
  { h with
    commandQueue := by simp [CommandExecutionContext.pushNewCommands, h.newTopCommands,
      h.commandQueue]
    newTopCommands := rfl }

theorem Between.pushNewCommands_eq :
    context.pushNewCommands = context := by
  obtain ⟨-, -, -, hnew, -⟩ := h
  cases context
  subst hnew
  rfl

end

/-- While there is room, an action that is queued becomes the last new command. -/
theorem queueNext_of_room {action : EntryAction R T}
    (hroom : context.newTopCommands.length + context.commandQueue.length ≤ context.queueLimit)
    (hoverflow : context.queueOverflow = false) :
    queueNext X context frame action =
      { context with
        queued := context.queued + 1
        newTopCommands := context.newTopCommands ++ [⟨context.queued, frame, action⟩] } := by
  have : ¬ context.newTopCommands.length + context.commandQueue.length > context.queueLimit := by
    omega
  simp [queueNext, this, hoverflow]

section

variable {final} (h : Between base (entry :: commandQueue) commandQuota world context)
  (hquota : 0 < commandQuota)
  (hexecute : execute X entry.frame entry.action (context.popped entry commandQueue) = .ok after)
  (hoverflow : after.queueOverflow = false)

include h hquota hexecute hoverflow

theorem Between.loop_step (hsuspension : after.suspension = none)
    (hsession : LoopSession X schedule after.pushNewCommands final) :
    LoopSession X schedule context final := by
  obtain ⟨fuel, stop, last, hloop, hlast⟩ := hsession
  refine ⟨fuel + 1, stop, last, ?_, hlast⟩
  have hpositive : context.commandQuota ≠ 0 := by
    rw [h.commandQuota]
    omega
  simp only [CommandExecutionContext.popped] at hexecute
  simp [runLoop, hpositive, h.commandQueue, hexecute, hoverflow, hsuspension, hloop, bind,
    Except.bind]

theorem Between.loop_suspends (hsuspension : after.suspension.isSome)
    (hsession : Continues X schedule (.suspended, { after with currentFrameDepth := 0 }) final) :
    LoopSession X schedule context final := by
  refine ⟨1, .suspended, after, ?_, hsession⟩
  have hpositive : context.commandQuota ≠ 0 := by
    rw [h.commandQuota]
    omega
  simp only [CommandExecutionContext.popped] at hexecute
  simp [runLoop, hpositive, h.commandQueue, hexecute, hoverflow, hsuspension, bind, Except.bind,
    pure, Except.pure]

end

theorem session_of_loopSession {final} (hoverflow : context.queueOverflow = false)
    (hsuspension : context.suspension = none)
    (h : LoopSession X schedule context.pushNewCommands final) :
    Session X schedule context final := by
  obtain ⟨fuel, stop, last, hloop, hlast⟩ := h
  refine ⟨fuel, (stop, { last with currentFrameDepth := 0 }), ?_, hlast⟩
  simp [run, hsuspension, hoverflow, hloop, bind, Except.bind, pure, Except.pure]

theorem Between.loopSession {final}
    (h : Between base commandQueue commandQuota world context)
    (hsession : Session X schedule context final) : LoopSession X schedule context final := by
  obtain ⟨fuel, result, hrun, hcontinues⟩ := hsession
  simp only [run, h.suspension, h.queueOverflow, h.pushNewCommands_eq, Option.isSome_none,
    Bool.false_eq_true, if_false] at hrun
  cases hloop : runLoop X fuel context with
  | error panic => simp [hloop, bind, Except.bind] at hrun
  | ok value =>
    simp only [hloop, bind, Except.bind, pure, Except.pure, Except.ok.injEq] at hrun
    obtain ⟨⟨stop, last⟩, rfl, rfl⟩ := Option.map_eq_some_iff.1 hrun
    exact ⟨fuel, stop, last, hloop, hcontinues⟩

theorem Between.session {final} (h : Between base commandQueue commandQuota world context)
    (hsession : LoopSession X schedule context final) : Session X schedule context final :=
  session_of_loopSession h.queueOverflow h.suspension (h.pushNewCommands_eq.symm ▸ hsession)

theorem Between.completed (h : Between base [] commandQuota world context)
    (hquota : 0 < commandQuota) :
    LoopSession X schedule context (.completed, { context with currentFrameDepth := 0 }) := by
  have hpositive : context.commandQuota ≠ 0 := by
    rw [h.commandQuota]
    omega
  refine ⟨1, .completed, context, ?_, ?_⟩
  · simp [runLoop, hpositive, h.commandQueue, pure, Except.pure]
  · cases schedule <;> rfl

theorem Between.queue (frame : Frame T) (action : EntryAction R T)
    (h : Between base commandQueue commandQuota world context)
    (hroom : commandQueue.length ≤ base.queueLimit) :
    ∃ id, Between base (⟨id, frame, action⟩ :: commandQueue) commandQuota world
        (queueNext X context frame action).pushNewCommands ∧
      (queueNext X context frame action).suspension = none ∧
      (queueNext X context frame action).queueOverflow = false := by
  have hlength : context.newTopCommands.length + context.commandQueue.length ≤
      context.queueLimit := by
    simpa [h.newTopCommands, h.commandQueue, h.queueLimit] using hroom
  rw [queueNext_of_room hlength h.queueOverflow]
  refine ⟨context.queued, ?_, h.suspension, h.queueOverflow⟩
  exact { h with
    commandQueue := by simp [CommandExecutionContext.pushNewCommands, h.newTopCommands,
      h.commandQueue]
    newTopCommands := rfl }

theorem Between.queue_queue (frame : Frame T) (action action' : EntryAction R T)
    (h : Between base commandQueue commandQuota world context)
    (hroom : commandQueue.length < base.queueLimit) :
    ∃ id id', Between base (⟨id, frame, action⟩ :: ⟨id', frame, action'⟩ :: commandQueue)
        commandQuota world
        (queueNext X (queueNext X context frame action) frame action').pushNewCommands ∧
      (queueNext X (queueNext X context frame action) frame action').suspension = none ∧
      (queueNext X (queueNext X context frame action) frame action').queueOverflow = false := by
  have hlength : context.newTopCommands.length + context.commandQueue.length ≤
      context.queueLimit := by
    simp only [h.newTopCommands, h.commandQueue, h.queueLimit, length_nil]
    omega
  rw [queueNext_of_room hlength h.queueOverflow, queueNext_of_room]
  · refine ⟨context.queued, context.queued + 1, ?_, h.suspension, h.queueOverflow⟩
    exact { h with
      commandQueue := by simp [CommandExecutionContext.pushNewCommands, h.newTopCommands,
        h.commandQueue]
      newTopCommands := rfl }
  · simp only [h.newTopCommands, h.commandQueue, h.queueLimit, nil_append,
      length_singleton]
    omega
  · exact h.queueOverflow

/-- A queue that waits for the result of a command. -/
structure Waits (base : CommandExecutionContext R T)
    (commandQueue : List (CommandQueueEntry R T)) (commandQuota : ℕ) (world : T.World)
    (frame : Frame T) (suspension : T.ResultSuspension) (source : S) (modifiers : ChainModifiers)
    (context : CommandExecutionContext R T) : Prop where
  between : Between base commandQueue commandQuota world { context with suspension := none }
  suspension : context.suspension = some ⟨frame, .result suspension source modifiers⟩

theorem Waits.pending
    (h : Waits base commandQueue commandQuota world frame suspension source modifiers context)
    (world' : T.World) (next : T.ResultSuspension) :
    Waits base commandQueue commandQuota world' frame next source modifiers
      { context with
        world := world'
        suspension := some ⟨frame, .result next source modifiers⟩ } :=
  ⟨{ h.between with world := rfl }, rfl⟩

theorem Waits.poll_pending {next : T.ResultSuspension} {elsewhere : T.World → T.World} {fuel : ℕ}
    (h : Waits base commandQueue commandQuota world frame suspension source modifiers context)
    (hcurrent : X.executionIsCurrent source (elsewhere world) = true)
    (hpoll : X.pollResult suspension (elsewhere world) = (.pending next, world')) :
    pollSuspension X fuel (context.updateWorld elsewhere) =
      .ok (some (.suspended, { context with
        world := world'
        suspension := some ⟨frame, .result next source modifiers⟩ })) := by
  have hworld : context.world = world := h.between.world
  simp [pollSuspension, updateWorld, h.suspension, ExecutionRuntime.pollSuspension, hworld,
    hcurrent, hpoll, pure, Except.pure]

theorem Between.suspends {id : ℕ}
    (h : Between base (⟨id, frame, .suspend (.result suspension source modifiers)⟩ :: commandQueue)
      commandQuota world context) (hquota : 0 < commandQuota) :
    ∃ waiting,
      Waits base commandQueue commandQuota world frame suspension source modifiers waiting ∧
      ∀ {schedule final}, Continues X schedule (.suspended, waiting) final →
        LoopSession X schedule context final := by
  set entry : CommandQueueEntry R T := ⟨id, frame, .suspend (.result suspension source modifiers)⟩
  have hexecute : execute X frame entry.action (context.popped entry commandQueue) =
      .ok { context.popped entry commandQueue with
        suspension := some ⟨frame, .result suspension source modifiers⟩ } := by
    simp [entry, execute, h.popped.suspension, pure, Except.pure]
  refine ⟨_, ⟨?_, rfl⟩, fun hcontinues =>
    h.loop_suspends hquota hexecute h.popped.queueOverflow rfl hcontinues⟩
  exact { h.popped with suspension := rfl }

/-- The result of a command is reported as soon as it is there, before any other entry. -/
theorem Waits.ready {schedule' : PollSchedule T} {result : Except T.Error ℤ}
    (hawait : X.awaitResult source suspension schedule world =
      some (.ready result schedule' world')) (hquota : 0 < commandQuota)
    (hroom : commandQueue.length ≤ base.queueLimit)
    (h : Waits base commandQueue commandQuota world frame suspension source modifiers context) :
    ∃ after, Between base commandQueue commandQuota
        (X.completeCommandResult source modifiers result world') after ∧
      ∀ final, LoopSession X schedule' after final →
        Continues X schedule (.suspended, context) final := by
  induction schedule generalizing suspension world context with
  | nil => cases hawait
  | cons elsewhere schedule ih =>
    rw [ExecutionRuntime.awaitResult] at hawait
    split at hawait
    · cases hawait
    case _ hcurrent =>
      have hcurrent : X.executionIsCurrent source (elsewhere world) = true := by
        simpa using hcurrent
      have hworld : context.world = world := h.between.world
      split at hawait
      case _ next world'' hpoll =>
        obtain ⟨after, hafter, hfinal⟩ := ih hawait (h.pending world'' next)
        exact ⟨after, hafter, fun final hsession =>
          ⟨0, _, h.poll_pending hcurrent hpoll, hfinal final hsession⟩⟩
      case _ hpoll =>
        cases hawait
        set polled : CommandExecutionContext R T :=
          { context with world := world', suspension := none } with hpolled
        have hpolls : ∀ fuel, pollSuspension X fuel (context.updateWorld elsewhere) =
            run X fuel
            (queueNext X polled frame (.resume (.complete source modifiers result))) := by
          simp [pollSuspension, updateWorld, h.suspension, ExecutionRuntime.pollSuspension, hworld,
            hcurrent, hpoll, hpolled]
        have hbetween : Between base commandQueue commandQuota world' polled :=
          { h.between with world := rfl }
        obtain ⟨id, hnext, hsuspension, hoverflow⟩ :=
          hbetween.queue (X := X) frame (.resume (.complete source modifiers result)) hroom
        have hreported := (hnext.popped.updateWorld
          (X.completeCommandResult source modifiers result)).pushNewCommands
        refine ⟨_, hreported, fun final hsession => ?_⟩
        obtain ⟨fuel, next, hrun, hnextSession⟩ := session_of_loopSession hoverflow hsuspension
          (hnext.loop_step hquota rfl hnext.queueOverflow hnext.suspension hsession)
        exact ⟨fuel, next, (hpolls fuel).trans hrun, hnextSession⟩

/-- When the schedule ends, the command is still waiting, and all other entries with it. -/
theorem Waits.waiting
    (hawait : X.awaitResult source suspension schedule world = some (.waiting world'))
    (h : Waits base commandQueue commandQuota world frame suspension source modifiers context) :
    ∃ last, Continues X schedule (.suspended, context) (.suspended, last) ∧
      last.world = world' ∧ last.commandQueue = commandQueue := by
  induction schedule generalizing suspension world context with
  | nil =>
    cases hawait
    exact ⟨context, rfl, h.between.world, h.between.commandQueue⟩
  | cons elsewhere schedule ih =>
    rw [awaitResult] at hawait
    split at hawait
    · cases hawait
    case _ hcurrent =>
      have hcurrent : X.executionIsCurrent source (elsewhere world) = true := by
        simpa using hcurrent
      split at hawait
      case _ next world'' hpoll =>
        obtain ⟨last, hlast, hrest⟩ := ih hawait (h.pending world'' next)
        exact ⟨last, ⟨0, _, h.poll_pending hcurrent hpoll, hlast⟩, hrest⟩
      · cases hawait

/-- The entries with which a command is scheduled for its sources. -/
inductive Schedules (chain : SteelContextChain R) (modifiers : ChainModifiers) (frame : Frame T) :
    List (CommandQueueEntry R T) → List S → Prop
  | none : Schedules chain modifiers frame [] []
  | one (id : ℕ) (source : S) :
    Schedules chain modifiers frame [⟨id, frame, .execute chain source modifiers⟩] [source]
  | two (id id' : ℕ) (first second : S) :
    Schedules chain modifiers frame [⟨id, frame, .execute chain first modifiers⟩,
      ⟨id', frame, .execute chain second modifiers⟩] [first, second]
  | next (id id' : ℕ) (source : S) {sources : List S} (hsources : sources ≠ []) :
    Schedules chain modifiers frame [⟨id, frame, .execute chain source modifiers⟩,
      ⟨id', frame, .executeContinuation chain sources modifiers⟩] (source :: sources)
  | continuation (id : ℕ) {sources : List S} (hsources : sources ≠ []) :
    Schedules chain modifiers frame [⟨id, frame, .executeContinuation chain sources modifiers⟩]
      sources

def Follows (X : ExecutionRuntime R T) (base : CommandExecutionContext R T)
    (rest : List (CommandQueueEntry R T)) (schedule : PollSchedule T)
    (context : CommandExecutionContext R T) : ExecutionRuntime.Progress T → Prop
  | .completed commandQuota schedule' world => 0 < commandQuota ∧
    ∃ after, Between base rest commandQuota world after ∧
      ∀ final, LoopSession X schedule' after final → LoopSession X schedule context final
  | .suspended world => ∃ last, LoopSession X schedule context (.suspended, last) ∧
    last.world = world ∧ rest <:+ last.commandQueue

variable {entries : List (CommandQueueEntry R T)}

theorem Schedules.cases_execute (h : Schedules chain modifiers frame entries (source :: sources)) :
    (∃ id entries', entries = ⟨id, frame, .execute chain source modifiers⟩ :: entries' ∧
      entries'.length ≤ 1 ∧ Schedules chain modifiers frame entries' sources) ∨
    ∃ id, entries = [⟨id, frame, .executeContinuation chain (source :: sources) modifiers⟩] := by
  cases h with
  | one id => exact .inl ⟨id, [], rfl, by simp, .none⟩
  | two id id' first second => exact .inl ⟨id, _, rfl, by simp, .one id' second⟩
  | next id id' source hsources => exact .inl ⟨id, _, rfl, by simp, .continuation id' hsources⟩
  | continuation id => exact .inr ⟨id, rfl⟩

/-- A continuation queues the entry of its first source and a continuation for the others. -/
theorem Between.executeContinuation (h : Between base rest commandQuota world context)
    (hroom : rest.length < base.queueLimit) :
    ∃ after id entries,
      execute X frame (.executeContinuation chain (source :: sources) modifiers) context =
        .ok after ∧
      after.queueOverflow = false ∧ after.suspension = none ∧
      Between base (⟨id, frame, .execute chain source modifiers⟩ :: (entries ++ rest))
        commandQuota world after.pushNewCommands ∧
      entries.length ≤ 1 ∧ Schedules chain modifiers frame entries sources := by
  cases sources with
  | nil =>
    obtain ⟨id, hbetween, hsuspension, hoverflow⟩ :=
      h.queue (X := X) frame (.execute chain source modifiers)
        (Nat.le_of_lt hroom)
    exact ⟨_, id, [], rfl, hoverflow, hsuspension, hbetween, by simp, .none⟩
  | cons second sources =>
    obtain ⟨id, id', hbetween, hsuspension, hoverflow⟩ :=
      h.queue_queue (X := X) frame (.execute chain source modifiers)
        (.executeContinuation chain (second :: sources) modifiers) hroom
    exact ⟨_, id, _, rfl, hoverflow, hsuspension, hbetween, by simp,
      .continuation id' (cons_ne_nil second sources)⟩

/-- The command is executed for one source: the queue goes on with the other sources, or it is
still waiting for the result. -/
theorem Between.execute_source {id : ℕ}
    (h : Between base (⟨id, frame, .execute chain source modifiers⟩ :: (entries ++ rest))
      commandQuota world context) (hentries : entries.length ≤ 1)
    (hroom : rest.length < base.queueLimit)
    (hinterpret : X.executeSources chain.terminal chain.executor modifiers (source :: sources)
      commandQuota schedule world = some progress) :
    (∃ commandQuota' schedule' world' after, 0 < commandQuota' ∧
      Between base (entries ++ rest) commandQuota' world' after ∧
      X.executeSources chain.terminal chain.executor modifiers sources commandQuota' schedule'
        world' = some progress ∧
      ∀ final, LoopSession X schedule' after final → LoopSession X schedule context final) ∨
    ∃ world' last, progress = .suspended world' ∧
      LoopSession X schedule context (.suspended, last) ∧ last.world = world' ∧
      last.commandQueue = entries ++ rest := by
  rw [executeSources] at hinterpret
  split at hinterpret
  · cases hinterpret
  case _ hcheck =>
    obtain ⟨hcurrent, hquota⟩ :
        X.executionIsCurrent source world = true ∧ 1 < commandQuota := by
      simpa using hcheck
    have hpopped := h.popped
    set popped := context.popped ⟨id, frame, .execute chain source modifiers⟩ (entries ++ rest)
      with hdef
    have hcalled : Between base (entries ++ rest) (commandQuota - 1) world popped.incrementCost :=
      { hpopped with commandQuota := congrArg (· - 1) hpopped.commandQuota }
    have hreport : ∀ (result : Except T.Error ℤ) (world' : T.World),
        execute X frame (.execute chain source modifiers) popped =
          .ok { popped.incrementCost with
            world := X.completeCommandResult source modifiers result world' } →
        X.executeSources chain.terminal chain.executor modifiers sources (commandQuota - 1)
          schedule (X.completeCommandResult source modifiers result world') = some progress →
        ∃ commandQuota' schedule' world' after, 0 < commandQuota' ∧
          Between base (entries ++ rest) commandQuota' world' after ∧
          X.executeSources chain.terminal chain.executor modifiers sources commandQuota' schedule'
            world' = some progress ∧
          ∀ final, LoopSession X schedule' after final → LoopSession X schedule context final := by
      intro result world' hexecute hrest
      have hafter : Between base (entries ++ rest) (commandQuota - 1)
          (X.completeCommandResult source modifiers result world')
          { popped.incrementCost with
            world := X.completeCommandResult source modifiers result world' } :=
        { hcalled with world := rfl }
      exact ⟨commandQuota - 1, schedule, _, _, by omega, hafter.pushNewCommands, hrest,
        fun final hsession => h.loop_step (by omega) hexecute hafter.queueOverflow
          hafter.suspension hsession⟩
    split at hinterpret
    case _ run hrun =>
      generalize hcall : run (chain.terminal.copyFor source) world = called at hinterpret
      obtain ⟨result, world'⟩ := called
      refine .inl (hreport result world' ?_ hinterpret)
      simp [execute, executeSource, incrementCost, hpopped.world, hcurrent, hrun, hcall, pure,
        Except.pure]
    case _ run hrun =>
      split at hinterpret
      case _ error world' hcall =>
        refine .inl (hreport (.error error) world' ?_ hinterpret)
        simp [execute, executeSource, incrementCost, hpopped.world, hcurrent, hrun, hcall, pure,
          Except.pure]
      case _ suspension world' hcall =>
        have hstarted : Between base (entries ++ rest) (commandQuota - 1) world'
            { popped.incrementCost with world := world' } :=
          { hcalled with world := rfl }
        have hlength : (entries ++ rest).length ≤ base.queueLimit := by
          rw [length_append]
          omega
        obtain ⟨id', hnext, hsuspension, hoverflow⟩ := hstarted.queue (X := X) frame
          (.suspend (.result suspension source modifiers)) hlength
        have hexecute : execute X frame (.execute chain source modifiers) popped =
            .ok (queueNext X { popped.incrementCost with world := world' } frame
              (.suspend (.result suspension source modifiers))) := by
          simp [execute, executeSource, incrementCost, hpopped.world, hcurrent, hrun, hcall, pure,
            Except.pure]
        obtain ⟨waiting, hwaits, hcontinues⟩ := hnext.suspends (X := X) (by omega)
        have hbefore : ∀ {schedule final}, Continues X schedule (.suspended, waiting) final →
            LoopSession X schedule context final := fun hfinal =>
          h.loop_step (by omega) hexecute hoverflow hsuspension (hcontinues hfinal)
        split at hinterpret
        · cases hinterpret
        case _ world'' hawait =>
          obtain ⟨last, hlast, hworld, hqueue⟩ := hwaits.waiting hawait
          exact .inr ⟨world'', last, (Option.some.inj hinterpret).symm, hbefore hlast, hworld,
            hqueue⟩
        case _ result schedule' world'' hawait =>
          obtain ⟨after, hafter, hlater⟩ := hwaits.ready hawait (by omega) hlength
          exact .inl ⟨commandQuota - 1, schedule', _, after, by omega, hafter, hinterpret,
            fun final hsession => hbefore (hlater final hsession)⟩
    · cases hinterpret

theorem Between.executeSources (hroom : rest.length < base.queueLimit) :
    ∀ (sources : List S) {entries : List (CommandQueueEntry R T)} {commandQuota : ℕ}
      {schedule : PollSchedule T} {world : T.World} {context : CommandExecutionContext R T}
      {progress : ExecutionRuntime.Progress T},
      Schedules chain modifiers frame entries sources → 0 < commandQuota →
      Between base (entries ++ rest) commandQuota world context →
      X.executeSources chain.terminal chain.executor modifiers sources commandQuota schedule
        world = some progress →
      Follows X base rest schedule context progress := by
  intro sources
  induction sources with
  | nil =>
    intro entries commandQuota schedule world context progress hentries hquota hbetween hinterpret
    cases hentries with
    | none =>
      cases hinterpret
      exact ⟨hquota, context, hbetween, fun final hsession => hsession⟩
    | continuation id hsources => exact absurd rfl hsources
  | cons source sources ih =>
    intro entries commandQuota schedule world context progress hentries hquota hbetween hinterpret
    obtain ⟨id, others, after, hafter, hlength, hothers, hbefore⟩ :
        ∃ id others after,
          Between base (⟨id, frame, .execute chain source modifiers⟩ :: (others ++ rest))
            commandQuota world after ∧
          others.length ≤ 1 ∧ Schedules chain modifiers frame others sources ∧
          ∀ final, LoopSession X schedule after final → LoopSession X schedule context final := by
      rcases hentries.cases_execute with ⟨id, others, rfl, hlength, hothers⟩ | ⟨id, rfl⟩
      · exact ⟨id, others, context, hbetween, hlength, hothers, fun final hsession => hsession⟩
      · obtain ⟨after, id', others, hexecute, hoverflow, hsuspension, hafter, hlength, hothers⟩ :=
          hbetween.popped.executeContinuation (X := X) hroom
        exact ⟨id', others, _, hafter, hlength, hothers, fun final hsession =>
          hbetween.loop_step hquota hexecute hoverflow hsuspension hsession⟩
    rcases hafter.execute_source hlength hroom hinterpret with
      ⟨commandQuota', schedule', world', next, hquota', hnext, hrest, hlater⟩ |
        ⟨world', last, rfl, hlast, hworld, hqueue⟩
    · have hfollows := ih hothers hquota' hnext hrest
      cases progress with
      | completed finalQuota finalSchedule finalWorld =>
        obtain ⟨hpositive, done, hdone, hfinal⟩ := hfollows
        exact ⟨hpositive, done, hdone, fun final hsession =>
          hbefore final (hlater final (hfinal final hsession))⟩
      | suspended finalWorld =>
        obtain ⟨last, hlast, hrest⟩ := hfollows
        exact ⟨last, hbefore _ (hlater _ hlast), hrest⟩
    · exact ⟨last, hbefore _ hlast, hworld, hqueue ▸ suffix_append others rest⟩

/-- Below the fork limit the loop over the sources of a stage produces the sources of the
stage. -/
theorem applyModifier_eq {modifier : CommandContext R → T.World → Except T.Error (List S) × T.World}
    {template : CommandContext R} {originalSource : S} {forkLimit : ℕ} (sources : List S) :
    ∀ (nextSources : List S) (world : T.World),
      nextSources.length +
        (X.modifySources modifier template modifiers sources world).sources.length < forkLimit →
      applyModifier X modifier template originalSource modifiers forkLimit sources nextSources
        world =
        (if (X.modifySources modifier template modifiers sources world).stopped then .stopped
          else .sources (nextSources ++
            (X.modifySources modifier template modifiers sources world).sources),
          (X.modifySources modifier template modifiers sources world).world) := by
  induction sources with
  | nil => simp [applyModifier, modifySources]
  | cons source sources ih =>
    intro nextSources world hlimit
    rcases hmodifier : modifier (template.copyFor source) world with ⟨error | newSources, world'⟩
    · simp only [modifySources, applyModifier, hmodifier] at hlimit ⊢
      cases hforked : modifiers.isForked with
      | true =>
        rw [hforked] at hlimit
        exact ih nextSources world' hlimit
      | false => rfl
    · simp only [modifySources, applyModifier, hmodifier, length_append]
        at hlimit ⊢
      have hnext : ¬ nextSources.length + newSources.length ≥ forkLimit := by omega
      rw [if_neg hnext, ih (nextSources ++ newSources) world' (by rw [length_append]; omega),
        append_assoc]

/-- A command that has been scheduled for the sources that are left. -/
structure Scheduled (X : ExecutionRuntime R T) (base : CommandExecutionContext R T)
    (rest : List (CommandQueueEntry R T)) (frame : Frame T) (chain : SteelContextChain R)
    (schedule : PollSchedule T) (progress : ExecutionRuntime.Progress T)
    (after : CommandExecutionContext R T) : Prop where
  queueOverflow : after.queueOverflow = false
  suspension : after.suspension = none
  interprets : ∃ entries sources modifiers commandQuota world, 0 < commandQuota ∧
    Schedules chain modifiers frame entries sources ∧
    Between base (entries ++ rest) commandQuota world after.pushNewCommands ∧
    X.executeSources chain.terminal chain.executor modifiers sources commandQuota schedule world =
      some progress

theorem Between.scheduled_nil (h : Between base rest commandQuota world context)
    (hquota : 0 < commandQuota) :
    Scheduled X base rest frame chain schedule (.completed commandQuota schedule world) context :=
  ⟨h.queueOverflow, h.suspension, [], [], .default, commandQuota, world, hquota, .none,
    h.pushNewCommands, rfl⟩

theorem Between.scheduleExecutions (h : Between base rest commandQuota world context)
    (hquota : 0 < commandQuota) (hroom : rest.length < base.queueLimit)
    (hinterpret : X.executeSources chain.terminal chain.executor modifiers sources commandQuota
      schedule world = some progress) :
    Scheduled X base rest frame chain schedule progress
      (scheduleExecutions X context frame chain sources modifiers) := by
  rcases sources with _ | ⟨first, _ | ⟨second, _ | ⟨third, sources⟩⟩⟩
  · cases hinterpret
    exact h.scheduled_nil hquota
  · obtain ⟨id, hnext, hsuspension, hoverflow⟩ :=
      h.queue (X := X) frame (.execute chain first modifiers) (Nat.le_of_lt hroom)
    exact ⟨hoverflow, hsuspension, _, _, _, _, _, hquota, .one id first, hnext, hinterpret⟩
  · obtain ⟨id, id', hnext, hsuspension, hoverflow⟩ :=
      h.queue_queue (X := X) frame (.execute chain first modifiers)
        (.execute chain second modifiers) hroom
    exact ⟨hoverflow, hsuspension, _, _, _, _, _, hquota, .two id id' first second, hnext,
      hinterpret⟩
  · obtain ⟨id, hnext, hsuspension, hoverflow⟩ :=
      h.queue (X := X) frame
        (.executeContinuation chain (first :: second :: third :: sources) modifiers)
        (Nat.le_of_lt hroom)
    exact ⟨hoverflow, hsuspension, _, _, _, _, _, hquota, .continuation id (by simp), hnext,
      hinterpret⟩

theorem Between.buildStages {terminal : CommandContext R} {executor : R.Executor}
    {executor_eq : terminal.executor = some executor} {originalSource : S}
    (hroom : rest.length < base.queueLimit) (redirects : List (CommandContext R)) :
    ∀ {sources : List S} {modifiers : ChainModifiers} {commandQuota : ℕ} {world : T.World}
      {context : CommandExecutionContext R T},
      Between base rest commandQuota world context → 0 < commandQuota →
      modifiers.isReturn = false →
      X.interpretStages terminal executor base.forkLimit redirects sources modifiers commandQuota
        schedule world = some progress →
      Scheduled X base rest frame ⟨[], terminal, executor, executor_eq⟩ schedule progress
        (CommandExecutionContext.buildStages X frame terminal executor executor_eq originalSource
          redirects sources modifiers context) := by
  induction redirects with
  | nil =>
    intro sources modifiers commandQuota world context h hquota hreturn hinterpret
    rw [interpretStages] at hinterpret
    split at hinterpret
    case _ hcurrent =>
      have hfilter : (sources.filter fun source => X.executionIsCurrent source context.world) =
          sources := by
        rw [h.world]
        exact filter_eq_self.2 (all_eq_true.1 hcurrent)
      rw [CommandExecutionContext.buildStages, buildTerminal, hfilter]
      rcases sources with _ | ⟨first, others⟩
      · cases hinterpret
        simp only [outOfSources, hreturn]
        exact h.scheduled_nil hquota
      · dsimp only
        split
        case _ hcustom =>
          simp [ExecutionRuntime.executeSources, hcustom] at hinterpret
        · simp only [hreturn]
          exact h.scheduleExecutions hquota hroom hinterpret
    · cases hinterpret
  | cons template redirects ih =>
    intro sources modifiers commandQuota world context h hquota hreturn hinterpret
    rw [interpretStages] at hinterpret
    split at hinterpret
    · cases hinterpret
    case _ hcurrent =>
      have hfilter : (sources.filter fun source => X.executionIsCurrent source context.world) =
          sources := by
        rw [h.world]
        exact filter_eq_self.2 (by simpa using hcurrent)
      rw [CommandExecutionContext.buildStages, hfilter]
      rcases sources with _ | ⟨first, others⟩
      · cases hinterpret
        simp only [outOfSources, hreturn]
        exact h.scheduled_nil hquota
      · simp only [isEmpty_cons, Bool.false_eq_true, if_false] at hinterpret
        have hforked :
            (if template.forks then modifiers.withForked else modifiers).isReturn = false := by
          split_ifs <;> exact hreturn
        generalize (if template.forks then modifiers.withForked else modifiers) = modifiers'
          at hforked hinterpret ⊢
        split at hinterpret
        case _ hmodifier =>
          simp only [hmodifier]
          exact ih h hquota hforked hinterpret
        case _ modifier hmodifier =>
          simp only [hmodifier]
          split at hinterpret
          · cases hinterpret
          case _ hlimits =>
            obtain ⟨hpositive, hlimit⟩ : 1 < commandQuota ∧
                (X.modifySources modifier template modifiers' (first :: others)
                  world).sources.length
                  < base.forkLimit := by
              simpa using hlimits
            have hcost : Between base rest (commandQuota - 1)
                (X.modifySources modifier template modifiers' (first :: others) world).world
                { context.incrementCost with
                  world := (X.modifySources modifier template modifiers' (first :: others)
                    world).world } :=
              { h with
                commandQuota := congrArg (· - 1) h.commandQuota
                world := rfl }
            have hfork : context.incrementCost.forkLimit = base.forkLimit := h.forkLimit
            have hworld : context.incrementCost.world = world := h.world
            rw [hworld, applyModifier_eq (first :: others) [] world
              (by rw [hfork]; simpa using hlimit)]
            split at hinterpret
            case _ hstopped =>
              cases hinterpret
              simp only [hstopped, if_true]
              exact hcost.scheduled_nil (by omega)
            case _ hstopped =>
              simp only [hstopped]
              exact ih hcost (by omega) hforked hinterpret
        · cases hinterpret

/-- A queue with a chain in front follows the nested loops of the chain, as far as they come
below the limits and with sources that stay current. Only when the last source has its result
does it go on with the other entries. -/
theorem session_interprets (X : ExecutionRuntime R T) (context : CommandExecutionContext R T)
    (id : ℕ) (frame : Frame T) (chain : SteelContextChain R) (originalSource : S)
    (sources : List S) (modifiers : ChainModifiers) (rest : List (CommandQueueEntry R T))
    (schedule : PollSchedule T) (progress : ExecutionRuntime.Progress T)
    (hqueue : context.commandQueue =
      ⟨id, frame, .buildContexts chain originalSource sources modifiers⟩ :: rest)
    (hnew : context.newTopCommands = []) (hsuspension : context.suspension = none)
    (hoverflow : context.queueOverflow = false) (hquota : 0 < context.commandQuota)
    (hroom : context.commandQueue.length ≤ context.queueLimit)
    (hreturn : modifiers.isReturn = false)
    (hinterpret : X.interpret chain context.forkLimit sources modifiers context.commandQuota
      schedule context.world = some progress) :
    match progress with
    | .completed commandQuota schedule' world => ∃ after : CommandExecutionContext R T,
      after.commandQueue = rest ∧ after.newTopCommands = [] ∧ after.suspension = none ∧
      after.queueOverflow = false ∧ after.commandQuota = commandQuota ∧ after.world = world ∧
      (∀ final, Session X schedule' after final → Session X schedule context final) ∧
      (rest = [] → ∃ last, Session X schedule context (.completed, last) ∧ last.world = world)
    | .suspended world => ∃ last, Session X schedule context (.suspended, last) ∧
      last.world = world ∧ rest <:+ last.commandQueue := by
  have hbetween : Between context
      (⟨id, frame, .buildContexts chain originalSource sources modifiers⟩ :: rest)
      context.commandQuota context.world context :=
    ⟨hqueue, rfl, rfl, hnew, hsuspension, hoverflow, rfl, rfl⟩
  have hroom : rest.length < context.queueLimit := by
    rw [hqueue, length_cons] at hroom
    exact hroom
  have hscheduled : Scheduled X context rest frame
      ⟨[], chain.terminal, chain.executor, chain.executor_eq⟩ schedule progress
      (buildStages X frame chain.terminal chain.executor chain.executor_eq originalSource
        chain.redirects sources modifiers (context.popped
          ⟨id, frame, .buildContexts chain originalSource sources modifiers⟩ rest)) :=
    hbetween.popped.buildStages hroom chain.redirects hquota hreturn hinterpret
  obtain ⟨hoverflow', hsuspension', entries, sources', modifiers', commandQuota', world', hquota',
    hentries, hnext, hexecutes⟩ := hscheduled
  have hfollows := Between.executeSources hroom sources' hentries hquota' hnext hexecutes
  have hbuilds : ∀ {final}, LoopSession X schedule _ final → Session X schedule context final :=
    fun hsession => hbetween.session
      (hbetween.loop_step hquota rfl hoverflow' hsuspension' hsession)
  cases progress with
  | completed commandQuota schedule' world =>
    obtain ⟨hpositive, after, hafter, hfinal⟩ := hfollows
    refine ⟨after, hafter.commandQueue, hafter.newTopCommands, hafter.suspension,
      hafter.queueOverflow, hafter.commandQuota, hafter.world,
      fun final hsession => hbuilds (hfinal final (hafter.loopSession hsession)), ?_⟩
    rintro rfl
    exact ⟨_, hbuilds (hfinal _ (hafter.completed hpositive)), hafter.world⟩
  | suspended world =>
    obtain ⟨last, hlast, hrest⟩ := hfollows
    exact ⟨last, hbuilds hlast, hrest⟩

end CommandExecutionContext

namespace CommandSample

/-- The world is a log of results, and suspended work takes a number of polls. -/
abbrev executionTypes : ExecutionTypes where
  World := List ℤ
  Error := Unit
  ResultSuspension := ℕ
  CustomAction := Empty
  CustomSuspension := Empty

/-- Executors return or suspend for as long as their handle says; modifiers copy the source. -/
def execution : ExecutionRuntime runtime executionTypes where
  executionIsCurrent _ _ := true
  callback _ := some fun _ result world => world ++ [result]
  withCallback source _ := source
  handleError _ _ _ world := world
  forkLimitReached _ := ()
  modifier copies := .standard fun context world =>
    (.ok (List.replicate (show ℕ from copies) context.source), world)
  executor polls := .suspended fun _ world => (.ok (show ℕ from polls), world)
  pollResult polls world :=
    match (polls : ℕ) with
    | 0 => (.ready (.ok world.length), world)
    | polls + 1 => (.pending polls, world)
  cancelResult _ world := world
  orderResult _ := .source
  pollCustom suspension := nomatch suspension
  cancelCustomSuspension suspension := nomatch suspension
  orderCustom suspension := nomatch suspension
  executeCustom action := nomatch action
  customRunsAfterCommandLimit action := nomatch action
  cancelCustom action := nomatch action

/-- A command for three sources, each of which has to wait for one poll. -/
def chain : SteelContextChain runtime where
  redirects := [⟨true, [], ⟨1, 0⟩, [], none, [], ⟨0, 0, Nat.le_refl 0⟩, none, some (3 : ℕ), true⟩]
  terminal := ⟨true, [], ⟨1, 0⟩, [], some (1 : ℕ), [], ⟨0, 0, Nat.le_refl 0⟩, none, none, false⟩
  executor := (1 : ℕ)
  executor_eq := rfl

def execute : CommandExecutionContext runtime executionTypes :=
  { CommandExecutionContext.new 10 10 [] with
    commandQueue := [⟨0, ⟨0, none, .all⟩, .buildContexts chain true [true] .default⟩]
    queued := 1 }

theorem execute_interprets :
    ∃ after : CommandExecutionContext runtime executionTypes,
      after.commandQueue = [] ∧ after.newTopCommands = [] ∧ after.suspension = none ∧
      after.queueOverflow = false ∧ after.commandQuota = 6 ∧ after.world = [0, 1, 2] ∧
      (∀ final, CommandExecutionContext.Session execution [] after final →
        CommandExecutionContext.Session execution [id, id, id, id, id, id] execute final) ∧
      (([] : List (CommandQueueEntry runtime executionTypes)) = [] →
        ∃ last, CommandExecutionContext.Session execution [id, id, id, id, id, id] execute
          (.completed, last) ∧ last.world = [0, 1, 2]) :=
  CommandExecutionContext.session_interprets execution execute 0 ⟨0, none, .all⟩ chain true [true]
    .default [] [id, id, id, id, id, id] (.completed 6 [] [0, 1, 2]) rfl rfl rfl rfl (by decide)
    (by decide) rfl rfl

end CommandSample

end Steel
