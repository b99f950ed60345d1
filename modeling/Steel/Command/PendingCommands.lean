import Steel.Command.CommandExecution
import Steel.Lib.ReferenceCount
import Steel.Lib.Run
import Steel.Utils.Uuid

/-! # Requests and suspended commands

Requests wait in queues until a tick handles them. A command that is suspended is retained and
polled at the start of later ticks; until it ends, later commands of the same sender wait, and
all commands wait for one that changes shared state.
-/

namespace Steel

/-- The key by which the commands of a sender are ordered. -/
inductive CommandSenderKey where
  | player (uuid : Uuid)
  | console
  | rcon
  deriving DecidableEq

/-- The key by which suggestion requests are coalesced. -/
inductive CommandSuggestionKey where
  | player (uuid : Uuid) (sessionAddress : ℕ) (residence : Option UInt64)
  | console
  | rcon
  deriving DecidableEq

/-- A sender; a player is one session of an account. -/
inductive CommandSender where
  | player (uuid : Uuid) (sessionAddress : ℕ)
  | console
  | rcon

def CommandSender.key : CommandSender → CommandSenderKey
  | .player uuid _ => .player uuid
  | .console => .console
  | .rcon => .rcon

structure CommandExecutionOwner where
  sender : CommandSender
  playerResidence : Option UInt64

namespace CommandExecutionOwner

def key (owner : CommandExecutionOwner) : CommandSenderKey := owner.sender.key

def suggestionKey (owner : CommandExecutionOwner) : CommandSuggestionKey :=
  match owner.sender with
  | .player uuid sessionAddress => .player uuid sessionAddress owner.playerResidence
  | .console => .console
  | .rcon => .rcon

end CommandExecutionOwner

inductive CommandRequest where
  | execute (owner : CommandExecutionOwner) (command : List Char)
  | suggestions (owner : CommandExecutionOwner) (transactionId : ℤ) (input : List Char)

/-- The queue that a request belongs to has reached its capacity. -/
structure CommandQueueFull where
  deriving DecidableEq

/-- A request that has been taken from one of the queues. -/
inductive PendingRequest (E Q : Type) where
  | execute (request : E)
  | suggestions (request : Q)

/-- Queues for executions and suggestions, which take turns. -/
structure PendingRequestQueues (K E Q : Type) where
  executions : List E
  suggestions : List (K × Q)
  executionCapacity : ℕ
  suggestionCapacity : ℕ
  preferExecution : Bool

namespace PendingRequestQueues

variable {K E Q : Type} [DecidableEq K]

def new (executionCapacity suggestionCapacity : ℕ) : PendingRequestQueues K E Q where
  executions := []
  suggestions := []
  executionCapacity := executionCapacity
  suggestionCapacity := suggestionCapacity
  preferExecution := true

variable (queues : PendingRequestQueues K E Q)

def submitExecution (request : E) : Except CommandQueueFull (PendingRequestQueues K E Q) :=
  if queues.executions.length ≥ queues.executionCapacity then throw {}
  else pure { queues with executions := queues.executions ++ [request] }

/-- A pending request of the same sender is replaced where it is. -/
def submitSuggestions (key : K) (request : Q) :
    Except CommandQueueFull (PendingRequestQueues K E Q) :=
  match queues.suggestions.findIdx? fun pending => pending.1 = key with
  | some index =>
    pure { queues with suggestions := queues.suggestions.set index (key, request) }
  | none =>
    if queues.suggestions.length ≥ queues.suggestionCapacity then throw {}
    else pure { queues with suggestions := queues.suggestions ++ [(key, request)] }

def popAllowedExecution (executionAllowed : E → Bool) :
    Option (E × PendingRequestQueues K E Q) := do
  let index ← queues.executions.findIdx? executionAllowed
  let request ← queues.executions[index]?
  pure (request, { queues with executions := queues.executions.eraseIdx index })

def popFrontWhere (executionAllowed : E → Bool) :
    Option (PendingRequest E Q × PendingRequestQueues K E Q) :=
  if queues.preferExecution then
    match queues.popAllowedExecution executionAllowed with
    | some (request, queues) =>
      some (.execute request, { queues with preferExecution := false })
    | none =>
      match queues.suggestions with
      | [] => none
      | (_, request) :: suggestions =>
        some (.suggestions request,
          { queues with suggestions := suggestions, preferExecution := true })
  else
    match queues.suggestions with
    | (_, request) :: suggestions =>
      some (.suggestions request,
        { queues with suggestions := suggestions, preferExecution := true })
    | [] =>
      (queues.popAllowedExecution executionAllowed).map fun (request, queues) =>
        (.execute request, { queues with preferExecution := false })

end PendingRequestQueues

abbrev CommandRequestQueue :=
  PendingRequestQueues CommandSuggestionKey CommandRequest CommandRequest

namespace CommandRequestQueue

variable (queue : CommandRequestQueue)

def submit (request : CommandRequest) : Except CommandQueueFull CommandRequestQueue :=
  match request with
  | .execute _ _ => queue.submitExecution request
  | .suggestions owner _ _ => queue.submitSuggestions owner.suggestionKey request

def popFrontRunnable (executionAllowed : CommandExecutionOwner → Bool) :
    Option (CommandRequest × CommandRequestQueue) :=
  (queue.popFrontWhere fun request =>
    match request with
    | .execute owner _ => executionAllowed owner
    | .suggestions _ _ _ => false).map fun (request, queue) =>
      match request with
      | .execute request => (request, queue)
      | .suggestions request => (request, queue)

end CommandRequestQueue

structure PendingCommandExecution (Execution : Type) where
  owner : CommandExecutionOwner
  order : CommandSuspensionOrder
  execution : Execution

structure PendingCommandExecutionQueue (Execution : Type) where
  queued : List (PendingCommandExecution Execution)
  blockedSources : HashMap CommandSenderKey ℕ
  globalBarriers : ℕ

structure PendingCommandExecutionStats where
  polled : ℕ
  finished : ℕ
  pending : ℕ

namespace PendingCommandExecutionQueue

variable {Execution : Type}

def new : PendingCommandExecutionQueue Execution := ⟨[], ∅, 0⟩

variable (queue : PendingCommandExecutionQueue Execution)

def retainBarrier (source : CommandSenderKey) (order : CommandSuspensionOrder) :
    PendingCommandExecutionQueue Execution :=
  { queue with
    blockedSources := ReferenceCount.retain queue.blockedSources source
    globalBarriers := if order = .global then queue.globalBarriers + 1 else queue.globalBarriers }

def releaseBarrier (source : CommandSenderKey) (order : CommandSuspensionOrder) :
    PendingCommandExecutionQueue Execution :=
  { queue with
    blockedSources := ReferenceCount.release queue.blockedSources source
    globalBarriers := if order = .global then queue.globalBarriers - 1 else queue.globalBarriers }

def blocks (source : CommandSenderKey) : Bool :=
  queue.globalBarriers > 0 || decide (source ∈ queue.blockedSources)

variable (suspensionOrder : Execution → Option CommandSuspensionOrder)

def pushSuspended (owner : CommandExecutionOwner) (execution : Execution) :
    Bool × PendingCommandExecutionQueue Execution :=
  match suspensionOrder execution with
  | none => (false, queue)
  | some order =>
    let queue := queue.retainBarrier owner.key order
    (true, { queue with queued := queue.queued ++ [⟨owner, order, execution⟩] })

/-- What a tick does with an execution that it has taken from the queue, and whether the
execution is finished. -/
def tickPending (queue : PendingCommandExecutionQueue Execution)
    (pending : PendingCommandExecution Execution) (ownerIsCurrent : Bool)
    (poll : Execution → ExecutionStop × Execution) :
    PendingCommandExecutionQueue Execution × Bool :=
  if !ownerIsCurrent then (queue.releaseBarrier pending.owner.key pending.order, true)
  else
    match poll pending.execution with
    | (.suspended, execution) =>
      match suspensionOrder execution with
      | none => (queue.releaseBarrier pending.owner.key pending.order, true)
      | some order =>
        let queue :=
          if order ≠ pending.order then
            (queue.releaseBarrier pending.owner.key pending.order).retainBarrier
              pending.owner.key order
          else queue
        ({ queue with queued := queue.queued ++ [⟨pending.owner, order, execution⟩] }, false)
    | _ => (queue.releaseBarrier pending.owner.key pending.order, true)

/-- The loop of a tick. Owners and polls may answer differently each time. -/
def tickLoop (ownerIsCurrent : ℕ → CommandExecutionOwner → Bool)
    (poll : ℕ → Execution → ExecutionStop × Execution) :
    ℕ → PendingCommandExecutionQueue Execution → ℕ → ℕ →
      PendingCommandExecutionQueue Execution × PendingCommandExecutionStats
  | 0, queue, polled, finished => (queue, ⟨polled, finished, queue.queued.length⟩)
  | scheduled + 1, queue, polled, finished =>
    match queue.queued with
    | [] => (queue, ⟨polled, finished, 0⟩)
    | pending :: queued =>
      let (queue, isFinished) := tickPending suspensionOrder { queue with queued := queued }
        pending (ownerIsCurrent polled pending.owner) (poll polled)
      tickLoop ownerIsCurrent poll scheduled queue (polled + 1)
        (if isFinished then finished + 1 else finished)

/-- Polls each execution at most once, and as many as the limit says. -/
def tick (queue : PendingCommandExecutionQueue Execution) (limit : ℕ)
    (ownerIsCurrent : ℕ → CommandExecutionOwner → Bool)
    (poll : ℕ → Execution → ExecutionStop × Execution) :
    PendingCommandExecutionQueue Execution × PendingCommandExecutionStats :=
  tickLoop suspensionOrder ownerIsCurrent poll (min queue.queued.length limit) queue 0 0

end PendingCommandExecutionQueue

end Steel
