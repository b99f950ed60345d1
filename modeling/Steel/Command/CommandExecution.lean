import Steel.Command.CommandParse

/-! # Executing commands

A command is executed through a queue of actions. An action may queue further actions, which run
before all that is queued already, and it may suspend the queue until work of another tick is done.
-/

namespace Steel

variable {S : Type} {R : CommandRuntime S}

/-- Why a command queue stopped running. -/
inductive ExecutionStop where
  | completed
  | suspended
  | commandLimit
  | queueOverflow
  deriving DecidableEq

/-- Which later commands wait for a suspended one. -/
inductive CommandSuspensionOrder where
  | source
  | global
  deriving DecidableEq

/-- Flags of a chain of contexts. -/
structure ChainModifiers where
  isForked : Bool
  isReturn : Bool

namespace ChainModifiers

def default : ChainModifiers := ⟨false, false⟩

def withForked (modifiers : ChainModifiers) : ChainModifiers := { modifiers with isForked := true }

end ChainModifiers

/-- What is called with the success and the result of a command. -/
abbrev CommandResultCallback (W : Type) := Option (Bool → ℤ → W → W)

namespace CommandResultCallback

variable {W : Type}

def onResult (callback : CommandResultCallback W) (success : Bool) (result : ℤ) (world : W) : W :=
  callback.elim world fun callback => callback success result world

def chain (first second : CommandResultCallback W) : CommandResultCallback W :=
  match first, second with
  | none, none => none
  | some callback, none => some callback
  | none, some callback => some callback
  | some first, some second => some fun success result world =>
    second success result (first success result world)

end CommandResultCallback

/-- The contexts of a chain from its current stage on: those that transform sources, and
the one that is executed. -/
structure SteelContextChain (R : CommandRuntime S) where
  redirects : List (CommandContext R)
  terminal : CommandContext R
  executor : R.Executor
  executor_eq : terminal.executor = some executor

def CommandContext.copyFor (context : CommandContext R) (source : S) : CommandContext R :=
  { context with source := source }

/-- The types that executions depend on: the world, errors, work that produces a result, and
actions and suspensions of custom commands. -/
structure ExecutionTypes where
  World : Type
  Error : Type
  ResultSuspension : Type
  CustomAction : Type
  CustomSuspension : Type

variable {T : ExecutionTypes}

/-- What a frame removes from the queue when it is left. -/
inductive FrameDiscard where
  | all
  | atOrAbove (depth : ℕ)

structure Frame (T : ExecutionTypes) where
  depth : ℕ
  returnValueConsumer : CommandResultCallback T.World
  discard : FrameDiscard

namespace Frame

def returnSuccess (frame : Frame T) (value : ℤ) (world : T.World) : T.World :=
  frame.returnValueConsumer.onResult true value world

def returnFailure (frame : Frame T) (world : T.World) : T.World :=
  frame.returnValueConsumer.onResult false 0 world

end Frame

/-- Work across ticks that produces the next action of a command. -/
inductive CommandSuspension (S : Type) (T : ExecutionTypes) where
  | result (suspension : T.ResultSuspension) (source : S) (modifiers : ChainModifiers)
  | custom (suspension : T.CustomSuspension)

inductive EntryAction (R : CommandRuntime S) (T : ExecutionTypes) where
  | resume (action : EntryAction R T)
  | suspend (suspension : CommandSuspension S T)
  | buildContexts (chain : SteelContextChain R) (originalSource : S) (sources : List S)
      (modifiers : ChainModifiers)
  | executeContinuation (chain : SteelContextChain R) (sources : List S)
      (modifiers : ChainModifiers)
  | execute (chain : SteelContextChain R) (source : S) (modifiers : ChainModifiers)
  | unavailable (source : S)
  | complete (source : S) (modifiers : ChainModifiers) (result : Except T.Error ℤ)
  | fallthrough
  | custom (action : T.CustomAction)

def EntryAction.runsAfterCommandLimit (custom : T.CustomAction → Bool) : EntryAction R T → Bool
  | .resume _ => true
  | .suspend _ => true
  | .custom action => custom action
  | _ => false

/-- What a custom command does with its frame and the queue, between effects on the world. -/
inductive ExecutionControl (R : CommandRuntime S) (T : ExecutionTypes) where
  | finish
  | perform (effect : T.World → T.World) (next : T.World → ExecutionControl R T)
  | incrementCost (next : ExecutionControl R T)
  | queueInitialCommand (chain : SteelContextChain R) (source : S)
      (returnValueConsumer : CommandResultCallback T.World) (next : ExecutionControl R T)
  | queueNext (action : T.CustomAction) (next : ExecutionControl R T)
  | suspend (suspension : T.CustomSuspension) (next : ExecutionControl R T)
  | queueContexts (chain : SteelContextChain R) (originalSource : S) (sources : List S)
      (modifiers : ChainModifiers) (next : ExecutionControl R T)
  | queueFallthrough (next : ExecutionControl R T)
  | discardFrame (next : ExecutionControl R T)
  | returnSuccess (result : ℤ) (next : ExecutionControl R T)
  | returnFailure (next : ExecutionControl R T)

inductive SteelModifier (R : CommandRuntime S) (T : ExecutionTypes) where
  | standard (modifier : CommandContext R → T.World → Except T.Error (List S) × T.World)
  | custom (modifier : S → List S → SteelContextChain R → ChainModifiers → Frame T →
      ExecutionControl R T)

inductive SteelExecutor (R : CommandRuntime S) (T : ExecutionTypes) where
  | standard (executor : CommandContext R → T.World → Except T.Error ℤ × T.World)
  | suspended (executor : CommandContext R → T.World →
      Except T.Error T.ResultSuspension × T.World)
  | custom (executor : S → SteelContextChain R → ChainModifiers → Frame T → ExecutionControl R T)

/-- A poll of work that is not done may change the work. -/
inductive SuspensionPoll (Work Result : Type) where
  | pending (work : Work)
  | ready (result : Result)

/-- The poll of a command whose result is produced across ticks. -/
abbrev CommandResultSuspensionPoll (T : ExecutionTypes) :=
  SuspensionPoll T.ResultSuspension (Except T.Error ℤ)

abbrev CommandSuspensionPoll (R : CommandRuntime S) (T : ExecutionTypes) :=
  SuspensionPoll (CommandSuspension S T) (EntryAction R T)

/-- What sources, modifiers, executors and suspended work do. -/
structure ExecutionRuntime (R : CommandRuntime S) (T : ExecutionTypes) where
  executionIsCurrent : S → T.World → Bool
  callback : S → CommandResultCallback T.World
  withCallback : S → CommandResultCallback T.World → S
  handleError : S → T.Error → Bool → T.World → T.World
  /-- The error for a command that reaches the given fork limit. -/
  forkLimitReached : ℕ → T.Error
  modifier : R.Modifier → SteelModifier R T
  executor : R.Executor → SteelExecutor R T
  pollResult : T.ResultSuspension → T.World → CommandResultSuspensionPoll T × T.World
  cancelResult : T.ResultSuspension → T.World → T.World
  orderResult : T.ResultSuspension → CommandSuspensionOrder
  pollCustom : T.CustomSuspension → T.World →
    SuspensionPoll T.CustomSuspension T.CustomAction × T.World
  cancelCustomSuspension : T.CustomSuspension → T.World → T.World
  orderCustom : T.CustomSuspension → CommandSuspensionOrder
  executeCustom : T.CustomAction → Frame T → ExecutionControl R T
  customRunsAfterCommandLimit : T.CustomAction → Bool
  cancelCustom : T.CustomAction → T.World → T.World

namespace ExecutionRuntime

variable (X : ExecutionRuntime R T)

def cancelSuspension : CommandSuspension S T → T.World → T.World
  | .result suspension _ _ => X.cancelResult suspension
  | .custom suspension => X.cancelCustomSuspension suspension

def cancelAction : EntryAction R T → T.World → T.World
  | .resume action => cancelAction action
  | .suspend suspension => X.cancelSuspension suspension
  | .custom action => X.cancelCustom action
  | _ => fun world => world

/-- Polls suspended work. Work whose source is gone is cancelled and has no result. -/
def pollSuspension (suspension : CommandSuspension S T) (world : T.World) :
    CommandSuspensionPoll R T × T.World :=
  match suspension with
  | .result suspension source modifiers =>
    if !X.executionIsCurrent source world then
      (.ready (.unavailable source), X.cancelResult suspension world)
    else
      match X.pollResult suspension world with
      | (.pending suspension, world) => (.pending (.result suspension source modifiers), world)
      | (.ready result, world) => (.ready (.complete source modifiers result), world)
  | .custom suspension =>
    match X.pollCustom suspension world with
    | (.pending suspension, world) => (.pending (.custom suspension), world)
    | (.ready action, world) => (.ready (.custom action), world)

/-- Reports the result of a command to its source, and an error unless it is forked. -/
def completeCommandResult (source : S) (modifiers : ChainModifiers) (result : Except T.Error ℤ)
    (world : T.World) : T.World :=
  match result with
  | .ok result => (X.callback source).onResult true result world
  | .error error =>
    let world := (X.callback source).onResult false 0 world
    if !modifiers.isForked then X.handleError source error false world else world

end ExecutionRuntime

/-- An action in its frame. Entries are numbered in the order in which they are queued. -/
structure CommandQueueEntry (R : CommandRuntime S) (T : ExecutionTypes) where
  id : ℕ
  frame : Frame T
  action : EntryAction R T

structure ActiveSuspension (S : Type) (T : ExecutionTypes) where
  frame : Frame T
  suspension : CommandSuspension S T

/-- A queue of actions with the world they act on. The entries that have been queued are counted. -/
structure CommandExecutionContext (R : CommandRuntime S) (T : ExecutionTypes) where
  forkLimit : ℕ
  queueLimit : ℕ
  commandQuota : ℕ
  queueOverflow : Bool
  commandQueue : List (CommandQueueEntry R T)
  newTopCommands : List (CommandQueueEntry R T)
  suspension : Option (ActiveSuspension S T)
  currentFrameDepth : ℕ
  world : T.World
  queued : ℕ

def maxCommandQueueDepth : ℕ := 10000000

/-- Assertions of the queue. -/
inductive ExecutionPanic where
  | twoSuspensions
  | customExecutorScheduled
  deriving DecidableEq

namespace CommandExecutionContext

variable (X : ExecutionRuntime R T)

def withQueueLimit (commandLimit forkLimit queueLimit : ℕ) (world : T.World) :
    CommandExecutionContext R T where
  forkLimit := forkLimit
  queueLimit := queueLimit
  commandQuota := max commandLimit 1
  queueOverflow := false
  commandQueue := []
  newTopCommands := []
  suspension := none
  currentFrameDepth := 0
  world := world
  queued := 0

def new (commandLimit forkLimit : ℕ) (world : T.World) : CommandExecutionContext R T :=
  withQueueLimit commandLimit forkLimit maxCommandQueueDepth world

variable (context : CommandExecutionContext R T)

def incrementCost : CommandExecutionContext R T :=
  { context with commandQuota := context.commandQuota - 1 }

def updateWorld (effect : T.World → T.World) : CommandExecutionContext R T :=
  { context with world := effect context.world }

def cancelEntry (entry : CommandQueueEntry R T) : CommandExecutionContext R T :=
  { context with world := X.cancelAction entry.action context.world }

def cancelCommandQueue : CommandExecutionContext R T :=
  context.commandQueue.foldl (cancelEntry X) { context with commandQueue := [] }

def cancelNewTopCommands : CommandExecutionContext R T :=
  context.newTopCommands.foldl (cancelEntry X) { context with newTopCommands := [] }

def createTopFrame (returnValueConsumer : CommandResultCallback T.World) : Frame T :=
  if context.currentFrameDepth = 0 then ⟨0, returnValueConsumer, .all⟩
  else
    let depth := context.currentFrameDepth + 1
    ⟨depth, returnValueConsumer, .atOrAbove depth⟩

variable (frame : Frame T)

/-- Queues an action before all that is queued already. When there is no room for it, all
actions are cancelled, and so is every action from then on. -/
def queueNext (action : EntryAction R T) : CommandExecutionContext R T :=
  let entry : CommandQueueEntry R T := ⟨context.queued, frame, action⟩
  let context := { context with queued := context.queued + 1 }
  let context :=
    if context.newTopCommands.length + context.commandQueue.length > context.queueLimit then
      let context := { context with queueOverflow := true }
      cancelCommandQueue X (cancelNewTopCommands X context)
    else context
  if context.queueOverflow then cancelEntry X context entry
  else { context with newTopCommands := context.newTopCommands ++ [entry] }

/-- The actions queued last come first, in the order in which they were queued. -/
def pushNewCommands : CommandExecutionContext R T :=
  { context with
    commandQueue := context.newTopCommands ++ context.commandQueue
    newTopCommands := [] }

def discard (frame : Frame T) : CommandExecutionContext R T :=
  match frame.discard with
  | .all => cancelCommandQueue X context
  | .atOrAbove depth =>
    (context.commandQueue.takeWhile fun entry => entry.frame.depth ≥ depth).foldl (cancelEntry X)
      { context with
        commandQueue := context.commandQueue.dropWhile fun entry => entry.frame.depth ≥ depth }

def queueInitialCommand (chain : SteelContextChain R)
    (source : S) (returnValueConsumer : CommandResultCallback T.World) :
    CommandExecutionContext R T :=
  queueNext X context (context.createTopFrame returnValueConsumer)
    (.buildContexts chain source [source] .default)

def runControl (frame : Frame T) : ExecutionControl R T → CommandExecutionContext R T →
    CommandExecutionContext R T
  | .finish, context => context
  | .perform effect next, context =>
    runControl frame (next context.world) (context.updateWorld effect)
  | .incrementCost next, context => runControl frame next context.incrementCost
  | .queueInitialCommand chain source returnValueConsumer next, context =>
    runControl frame next (queueInitialCommand X context chain source returnValueConsumer)
  | .queueNext action next, context =>
    runControl frame next (queueNext X context frame (.custom action))
  | .suspend suspension next, context =>
    runControl frame next (queueNext X context frame (.suspend (.custom suspension)))
  | .queueContexts chain originalSource sources modifiers next, context =>
    runControl frame next
      (queueNext X context frame (.buildContexts chain originalSource sources modifiers))
  | .queueFallthrough next, context =>
    runControl frame next (queueNext X context frame .fallthrough)
  | .discardFrame next, context => runControl frame next (discard X context frame)
  | .returnSuccess result next, context =>
    runControl frame next (discard X (context.updateWorld (frame.returnSuccess result)) frame)
  | .returnFailure next, context =>
    runControl frame next (discard X (context.updateWorld frame.returnFailure) frame)

/-- What becomes of the sources of one stage. -/
inductive Modified (S : Type) where
  | sources (sources : List S)
  | stopped

/-- The loop over the sources of a stage with a standard modifier. An error stops a command
that is not forked, and so do too many sources. -/
def applyModifier (modifier : CommandContext R → T.World → Except T.Error (List S) × T.World)
    (template : CommandContext R) (originalSource : S) (modifiers : ChainModifiers)
    (forkLimit : ℕ) : List S → List S → T.World → Modified S × T.World
  | [], nextSources, world => (.sources nextSources, world)
  | source :: sources, nextSources, world =>
    match modifier (template.copyFor source) world with
    | (.error error, world) =>
      if modifiers.isForked then
        applyModifier modifier template originalSource modifiers forkLimit sources nextSources
          world
      else (.stopped, X.handleError source error false world)
    | (.ok newSources, world) =>
      if nextSources.length + newSources.length ≥ forkLimit then
        (.stopped,
          X.handleError originalSource (X.forkLimitReached forkLimit) modifiers.isForked world)
      else
        applyModifier modifier template originalSource modifiers forkLimit sources
          (nextSources ++ newSources) world

def scheduleExecutions (chain : SteelContextChain R) (sources : List S)
    (modifiers : ChainModifiers) : CommandExecutionContext R T :=
  match sources with
  | [] => context
  | [first] => queueNext X context frame (.execute chain first modifiers)
  | [first, second] =>
    queueNext X (queueNext X context frame (.execute chain first modifiers)) frame
      (.execute chain second modifiers)
  | sources => queueNext X context frame (.executeContinuation chain sources modifiers)

def outOfSources (modifiers : ChainModifiers) : CommandExecutionContext R T :=
  if modifiers.isReturn then queueNext X context frame .fallthrough else context

/-- The last stage of a chain for the sources that are left. -/
def buildTerminal (chain : SteelContextChain R) (sources : List S) (modifiers : ChainModifiers) :
    CommandExecutionContext R T :=
  match sources.filter fun source => X.executionIsCurrent source context.world with
  | [] => outOfSources X context frame modifiers
  | first :: rest =>
    match X.executor chain.executor with
    | .custom executor =>
      (first :: rest).foldl (fun context source =>
        runControl X frame (executor source chain modifiers frame) context) context
    | _ =>
      if modifiers.isReturn then
        let callback := CommandResultCallback.chain (X.callback first) frame.returnValueConsumer
        scheduleExecutions X context frame chain [X.withCallback first callback] modifiers
      else scheduleExecutions X context frame chain (first :: rest) modifiers

/-- Applies the stages of a chain one after the other, and then schedules its command. -/
def buildStages (frame : Frame T) (terminal : CommandContext R) (executor : R.Executor)
    (executor_eq : terminal.executor = some executor) (originalSource : S) :
    List (CommandContext R) → List S → ChainModifiers → CommandExecutionContext R T →
      CommandExecutionContext R T
  | [], sources, modifiers, context =>
    buildTerminal X context frame ⟨[], terminal, executor, executor_eq⟩ sources modifiers
  | template :: redirects, sources, modifiers, context =>
    match sources.filter fun source => X.executionIsCurrent source context.world with
    | [] => outOfSources X context frame modifiers
    | first :: rest =>
      let modifiers := if template.forks then modifiers.withForked else modifiers
      match template.modifier.map X.modifier with
      | some (.custom modifier) =>
        runControl X frame (modifier originalSource (first :: rest)
          ⟨template :: redirects, terminal, executor, executor_eq⟩ modifiers frame) context
      | some (.standard modifier) =>
        let context := context.incrementCost
        match applyModifier X modifier template originalSource modifiers context.forkLimit
          (first :: rest) [] context.world with
        | (.stopped, world) => { context with world := world }
        | (.sources sources, world) =>
          buildStages frame terminal executor executor_eq originalSource redirects sources
            modifiers { context with world := world }
      | none =>
        buildStages frame terminal executor executor_eq originalSource redirects (first :: rest)
          modifiers context

/-- Executes the terminal command of a chain for one source. -/
def executeSource (chain : SteelContextChain R) (source : S) (modifiers : ChainModifiers) :
    Except ExecutionPanic (CommandExecutionContext R T) :=
  if !X.executionIsCurrent source context.world then
    pure (context.updateWorld ((X.callback source).onResult false 0))
  else
    let context := context.incrementCost
    match X.executor chain.executor with
    | .standard executor =>
      let (result, world) := executor (chain.terminal.copyFor source) context.world
      pure { context with world := X.completeCommandResult source modifiers result world }
    | .suspended executor =>
      match executor (chain.terminal.copyFor source) context.world with
      | (.ok suspension, world) =>
        pure (queueNext X { context with world := world } frame
          (.suspend (.result suspension source modifiers)))
      | (.error error, world) =>
        pure { context with
          world := X.completeCommandResult source modifiers (.error error) world }
    | .custom _ => throw .customExecutorScheduled

def execute (frame : Frame T) : EntryAction R T → CommandExecutionContext R T →
    Except ExecutionPanic (CommandExecutionContext R T)
  | .resume action, context => execute frame action context
  | .suspend suspension, context =>
    if context.suspension.isSome then throw .twoSuspensions
    else pure { context with suspension := some ⟨frame, suspension⟩ }
  | .buildContexts chain originalSource sources modifiers, context =>
    pure (buildStages X frame chain.terminal chain.executor chain.executor_eq originalSource
      chain.redirects sources modifiers context)
  | .executeContinuation chain sources modifiers, context =>
    match sources with
    | [] => pure context
    | source :: sources =>
      let context := queueNext X context frame (.execute chain source modifiers)
      if sources.isEmpty then pure context
      else pure (queueNext X context frame (.executeContinuation chain sources modifiers))
  | .execute chain source modifiers, context => executeSource X context frame chain source modifiers
  | .unavailable source, context =>
    pure (context.updateWorld ((X.callback source).onResult false 0))
  | .complete source modifiers result, context =>
    pure (context.updateWorld (X.completeCommandResult source modifiers result))
  | .fallthrough, context =>
    pure (discard X (context.updateWorld frame.returnFailure) frame)
  | .custom action, context => pure (runControl X frame (X.executeCustom action frame) context)

/-- The loop of `run`, with fuel for the number of actions. -/
def runLoop : ℕ → CommandExecutionContext R T →
    Except ExecutionPanic (Option (ExecutionStop × CommandExecutionContext R T))
  | 0, _ => pure none
  | fuel + 1, context =>
    if context.commandQuota = 0 ∧ ¬ context.commandQueue.head?.any fun entry =>
      entry.action.runsAfterCommandLimit X.customRunsAfterCommandLimit then
      pure (some (.commandLimit, context))
    else
      match context.commandQueue with
      | [] => pure (some (.completed, context))
      | entry :: commandQueue => do
        let context ← execute X entry.frame entry.action { context with
          commandQueue := commandQueue
          currentFrameDepth := entry.frame.depth }
        if context.queueOverflow then pure (some (.queueOverflow, context))
        else if context.suspension.isSome then pure (some (.suspended, context))
        else runLoop fuel context.pushNewCommands

def run (fuel : ℕ) (context : CommandExecutionContext R T) :
    Except ExecutionPanic (Option (ExecutionStop × CommandExecutionContext R T)) :=
  if context.suspension.isSome then pure (some (.suspended, context))
  else if context.queueOverflow then pure (some (.queueOverflow, context))
  else do
    let result ← runLoop X fuel context.pushNewCommands
    pure (result.map fun (stop, context) => (stop, { context with currentFrameDepth := 0 }))

/-- Polls the active suspension once and resumes the queue when it is ready. -/
def pollSuspension (fuel : ℕ) (context : CommandExecutionContext R T) :
    Except ExecutionPanic (Option (ExecutionStop × CommandExecutionContext R T)) :=
  match context.suspension with
  | none => run X fuel context
  | some active =>
    let context := { context with suspension := none }
    match X.pollSuspension active.suspension context.world with
    | (.pending suspension, world) =>
      pure (some (.suspended,
        { context with world := world, suspension := some ⟨active.frame, suspension⟩ }))
    | (.ready action, world) =>
      run X fuel (queueNext X { context with world := world } active.frame (.resume action))

/-- Cancels the active suspension and all actions. A context is cancelled when it is dropped. -/
def cancel : CommandExecutionContext R T :=
  let context :=
    match context.suspension with
    | none => context
    | some active => { context with
        suspension := none
        world := X.cancelSuspension active.suspension context.world }
  let context := cancelNewTopCommands X (cancelCommandQueue X context)
  { context with queueOverflow := false, currentFrameDepth := 0 }

end CommandExecutionContext

end Steel
