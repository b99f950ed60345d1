import Steel.World.TickList

/-! # The tick scheduler of a world

Chunks own their tick queues. The scheduler keeps, for every registered chunk, the deadline of the
first tick of each kind, and for the chunks of the current active snapshot an ordered set of these
deadlines.
-/

namespace Steel

open Function (update)

inductive TickKind where
  | block
  | fluid
  deriving DecidableEq

inductive ChunkTickContainerLifecycle where
  | proto
  | prePublication
  | registered
  | finalized
  deriving DecidableEq

/-- The tick queues of a chunk, with the position of the chunk that owns them. -/
structure ChunkTickContainer (T : TickKind → Type) where
  pos : ChunkPos
  lifecycle : ChunkTickContainerLifecycle
  lists : (kind : TickKind) → TickList (T kind)

abbrev ContainerId := ℕ

structure ActiveChunkRank where
  generation : ℕ
  rank : ℕ
  deriving DecidableEq

structure RegisteredChunkTicks where
  container : ContainerId
  heads : TickKind → Option ℤ
  active : Option ActiveChunkRank

namespace RegisteredChunkTicks

variable (registered : RegisteredChunkTicks)

def setHead (kind : TickKind) (triggerTick : Option ℤ) : RegisteredChunkTicks :=
  { registered with heads := update registered.heads kind triggerTick }

def activeRank (generation : ℕ) : Option ℕ :=
  match registered.active with
  | some active => if active.generation = generation then some active.rank else none
  | none => none

end RegisteredChunkTicks

inductive TickSchedulerError where
  | alreadyRegistered (pos : ChunkPos)
  | missingContainer (pos : ChunkPos)
  | containerMismatch (pos : ChunkPos)
  deriving DecidableEq

abbrev Deadlines := SortedSet (ℤ ×ₗ ℤ)

def deadline (triggerTick : ℤ) (pos : ChunkPos) : ℤ ×ₗ ℤ := toLex (triggerTick, pos.asRaw)

namespace Deadlines

variable (deadlines : Deadlines)

/-- Remove the head of an active chunk, which must be there. -/
def removeHead (active : Bool) (pos : ChunkPos) : Option ℤ → Option Deadlines
  | none => some deadlines
  | some head =>
    if active then
      if deadline head pos ∈ deadlines then some (deadlines.erase (deadline head pos)) else none
    else some deadlines

/-- Insert the head of an active chunk, which must not be there. -/
def insertHead (active : Bool) (pos : ChunkPos) : Option ℤ → Option Deadlines
  | none => some deadlines
  | some head =>
    if active then
      if deadline head pos ∈ deadlines then none else some (deadlines.insert (deadline head pos))
    else some deadlines

end Deadlines

structure ActiveTickContainer where
  pos : ChunkPos
  rank : ℕ
  container : ContainerId
  deriving DecidableEq

structure TickHeadUpdate where
  pos : ChunkPos
  triggerTick : Option ℤ
  deriving DecidableEq

structure WorldTickSchedulerState where
  chunks : ChunkPos → Option RegisteredChunkTicks
  activeDeadlines : TickKind → Deadlines
  activeGeneration : ℕ

namespace WorldTickSchedulerState

def new : WorldTickSchedulerState := ⟨fun _ => none, fun _ => .empty, 0⟩

variable (st : WorldTickSchedulerState)

/-- The next generation. When the 64-bit counter is used up, all chunks are made inactive and
counting starts again. -/
def advanceActiveGeneration : WorldTickSchedulerState :=
  if st.activeGeneration + 1 < 2 ^ 64 then
    { st with activeGeneration := st.activeGeneration + 1 }
  else
    { st with
      chunks := fun pos => (st.chunks pos).map fun registered => { registered with active := none }
      activeGeneration := 1 }

def setHead (pos : ChunkPos) (kind : TickKind) (triggerTick : Option ℤ) :
    Option (Except TickSchedulerError Unit × WorldTickSchedulerState) :=
  match st.chunks pos with
  | none => some (.error (.missingContainer pos), st)
  | some registered =>
    let active := (registered.activeRank st.activeGeneration).isSome
    let previous := registered.heads kind
    if previous = triggerTick then some (.ok (), st)
    else do
      let deadlines ← (st.activeDeadlines kind).removeHead active pos previous
      let deadlines ← deadlines.insertHead active pos triggerTick
      some (.ok (), { st with
        chunks := update st.chunks pos (some (registered.setHead kind triggerTick))
        activeDeadlines := update st.activeDeadlines kind deadlines })

/-- The loop of `take_due`, once for each deadline at most. -/
def takeDueLoop (kind : TickKind) (currentTick : ℤ) : ℕ → WorldTickSchedulerState →
    Option (List ActiveTickContainer × WorldTickSchedulerState)
  | 0, st => some ([], st)
  | n + 1, st =>
    match (st.activeDeadlines kind).first with
    | none => some ([], st)
    | some entry =>
      let (triggerTick, raw) := ofLex entry
      if currentTick < triggerTick then some ([], st)
      else
        let pos := ChunkPos.fromRaw raw
        match st.chunks pos with
        | none => none
        | some registered =>
          if registered.heads kind ≠ some triggerTick then none
          else
            match registered.activeRank st.activeGeneration with
            | none => none
            | some rank => do
              let (due, st) ← takeDueLoop kind currentTick n { st with
                chunks := update st.chunks pos (some (registered.setHead kind none))
                activeDeadlines := update st.activeDeadlines kind
                  (st.activeDeadlines kind).popFirst }
              some (⟨pos, rank, registered.container⟩ :: due, st)

def takeDue (kind : TickKind) (currentTick : ℤ) :
    Option (List ActiveTickContainer × WorldTickSchedulerState) :=
  takeDueLoop kind currentTick (st.activeDeadlines kind).items.length st

def reconcileFrom (generation : ℕ) : ℕ → List ChunkPos → WorldTickSchedulerState →
    Option (Except TickSchedulerError Unit × WorldTickSchedulerState)
  | _, [], st => some (.ok (), st)
  | rank, pos :: positions, st =>
    match st.chunks pos with
    | none => some (.error (.missingContainer pos), st)
    | some registered =>
      if (registered.activeRank generation).isSome then none
      else do
        let registered := { registered with active := some ⟨generation, rank⟩ }
        let block ← (st.activeDeadlines .block).insertHead true pos (registered.heads .block)
        let fluid ← (st.activeDeadlines .fluid).insertHead true pos (registered.heads .fluid)
        reconcileFrom generation (rank + 1) positions { st with
          chunks := update st.chunks pos (some registered)
          activeDeadlines := fun
            | .block => block
            | .fluid => fluid }

/-- Apply the head updates of a collection; an error is a panic there. -/
def applyHeadUpdates (kind : TickKind) : List TickHeadUpdate → WorldTickSchedulerState →
    Option WorldTickSchedulerState
  | [], st => some st
  | update :: updates, st =>
    match st.setHead update.pos kind update.triggerTick with
    | some (.ok (), st) => applyHeadUpdates kind updates st
    | _ => none

end WorldTickSchedulerState

structure ReadyContainer where
  pos : ChunkPos
  rank : ℕ
  container : ContainerId
  priority : TickPriority
  subTickOrder : ℤ
  dirtyReported : Bool
  deriving DecidableEq

namespace ReadyContainer

def intraOrder (ready : ReadyContainer) : ℤ ×ₗ ℤ :=
  intraTickDrainOrder ready.priority ready.subTickOrder

/-- The head of the heap is the least by tick order, then by rank. -/
def order (ready : ReadyContainer) : (ℤ ×ₗ ℤ) ×ₗ ℕ := toLex (ready.intraOrder, ready.rank)

def new {T : Type} (active : ActiveTickContainer) (tick : ScheduledTick T) (dirtyReported : Bool) :
    ReadyContainer :=
  ⟨active.pos, active.rank, active.container, tick.priority, tick.subTickOrder, dirtyReported⟩

def refresh {T : Type} (ready : ReadyContainer) (tick : ScheduledTick T) : ReadyContainer :=
  { ready with priority := tick.priority, subTickOrder := tick.subTickOrder }

end ReadyContainer

abbrev ReadyHeap := PriorityQueue ReadyContainer ReadyContainer.order

structure ScheduledTickBatch (T : Type) where
  ticks : List (ScheduledTick T)
  changedContainers : List ℕ

variable {T : TickKind → Type} [∀ kind, TickKey (T kind)]

def ChunkTickContainer.setList (container : ChunkTickContainer T) (kind : TickKind)
    (list : TickList (T kind)) : ChunkTickContainer T :=
  { container with lists := update container.lists kind list }

section Collect

variable (kind : TickKind) (currentTick : ℤ)

/-- The due containers whose head is ready, and the heads of the others. -/
def prepareReadyContainers (containers : ContainerId → ChunkTickContainer T) :
    List ActiveTickContainer → ReadyHeap → List TickHeadUpdate →
      Option (ReadyHeap × List TickHeadUpdate)
  | [], ready, updates => some (ready, updates)
  | active :: due, ready, updates =>
    let container := containers active.container
    if container.lifecycle ≠ .registered then none
    else
      match (container.lists kind).peek with
      | some tick =>
        if tick.triggerTick ≤ currentTick then
          prepareReadyContainers containers due (ready.push (.new active tick false)) updates
        else
          prepareReadyContainers containers due ready
            (updates ++ [⟨active.pos, some tick.triggerTick⟩])
      | none => prepareReadyContainers containers due ready (updates ++ [⟨active.pos, none⟩])

variable {kind} in
/-- Drain one queue while its head is no later than the competitor: at most `remaining` ticks. -/
def drain (competitor : Option (ℤ ×ₗ ℤ)) : ℕ → TickList (T kind) →
    List (ScheduledTick (T kind)) × TickList (T kind)
  | 0, list => ([], list)
  | remaining + 1, list =>
    match list.peekReady currentTick with
    | none => ([], list)
    | some nextTick =>
      if competitor.any fun order => order < nextTick.intraOrder then ([], list)
      else
        match list.popReady currentTick with
        | none => ([], list)
        | some (tick, list) =>
          let (ticks, list) := drain competitor remaining list
          (tick :: ticks, list)

/-- The state of a collection. -/
structure Collecting (T : TickKind → Type) (kind : TickKind) where
  containers : ContainerId → ChunkTickContainer T
  ready : ReadyHeap
  ticks : List (ScheduledTick (T kind))
  changedContainers : List ℕ
  headUpdates : List TickHeadUpdate

/-- The rest of a turn after the first tick of a container was taken: drain the container
against its best competitor, then put it back into the heap or record its new head. -/
def serve (maxTicks : ℕ) (s : Collecting T kind) (readyContainer : ReadyContainer)
    (ready : ReadyHeap) (tick : ScheduledTick (T kind)) (list : TickList (T kind)) :
    Collecting T kind :=
  let changedContainers :=
    if readyContainer.dirtyReported then s.changedContainers
    else s.changedContainers ++ [readyContainer.rank]
  let competitor := ready.peek.map ReadyContainer.intraOrder
  let (drained, list) := drain currentTick competitor (maxTicks - (s.ticks.length + 1)) list
  let ticks := s.ticks ++ tick :: drained
  let containers := update s.containers readyContainer.container
    ((s.containers readyContainer.container).setList kind list)
  match list.peek with
  | some nextTick =>
    if ticks.length < maxTicks ∧ nextTick.triggerTick ≤ currentTick then
      let readyContainer := { readyContainer with dirtyReported := true }
      ⟨containers, ready.push (readyContainer.refresh nextTick), ticks, changedContainers,
        s.headUpdates⟩
    else
      ⟨containers, ready, ticks, changedContainers,
        s.headUpdates ++ [⟨readyContainer.pos, some nextTick.triggerTick⟩]⟩
  | none =>
    ⟨containers, ready, ticks, changedContainers, s.headUpdates ++ [⟨readyContainer.pos, none⟩]⟩

/-- The outer loop of `collect_registered_ticks`, for at most `fuel` turns. -/
def collectLoop (maxTicks : ℕ) : ℕ → Collecting T kind → Option (Collecting T kind)
  | 0, _ => none
  | fuel + 1, s =>
    if maxTicks ≤ s.ticks.length then some s
    else
      match s.ready.pop with
      | none => some s
      | some (readyContainer, ready) =>
        let container := s.containers readyContainer.container
        if container.lifecycle ≠ .registered then none
        else
          match (container.lists kind).popReady currentTick with
          | none => collectLoop maxTicks fuel { s with
              ready := ready
              headUpdates := s.headUpdates ++
                [⟨readyContainer.pos, (container.lists kind).head⟩] }
          | some (tick, list) =>
            collectLoop maxTicks fuel
              (serve kind currentTick maxTicks s readyContainer ready tick list)

def collectRegisteredTicks (containers : ContainerId → ChunkTickContainer T)
    (due : List ActiveTickContainer) (maxTicks : ℕ) :
    Option (ScheduledTickBatch (T kind) × List TickHeadUpdate ×
      (ContainerId → ChunkTickContainer T)) := do
  let (ready, updates) ← prepareReadyContainers kind currentTick containers due .empty []
  let s ← collectLoop kind currentTick maxTicks (maxTicks + ready.items.length + 1)
    ⟨containers, ready, [], [], updates⟩
  let rest := s.ready.items.map fun readyContainer =>
    ⟨readyContainer.pos, ((s.containers readyContainer.container).lists kind).head⟩
  some (⟨s.ticks, s.changedContainers⟩, s.headUpdates ++ rest, s.containers)

end Collect

/-- The scheduler, together with the containers of all chunks. -/
structure WorldTickScheduler (T : TickKind → Type) where
  containers : ContainerId → ChunkTickContainer T
  state : WorldTickSchedulerState

namespace WorldTickScheduler

variable (s : WorldTickScheduler T)

def setContainer (id : ContainerId) (container : ChunkTickContainer T) : WorldTickScheduler T :=
  { s with containers := update s.containers id container }

def registerChunk (id : ContainerId) : Except TickSchedulerError Unit × WorldTickScheduler T :=
  let container := s.containers id
  if container.lifecycle ≠ .prePublication then (.error (.alreadyRegistered container.pos), s)
  else if (s.state.chunks container.pos).isSome then
    (.error (.alreadyRegistered container.pos), s)
  else
    let registered : RegisteredChunkTicks :=
      ⟨id, fun kind => (container.lists kind).head, none⟩
    (.ok (), { s.setContainer id { container with lifecycle := .registered } with
      state := { s.state with
        chunks := update s.state.chunks container.pos (some registered) } })

/-- Both queues are unpacked before the heads are set. The record is looked up again in
between, with the same result. -/
def unpackChunk (pos : ChunkPos) (currentTick : ℤ) :
    Option (Except TickSchedulerError Unit × WorldTickScheduler T) :=
  match s.state.chunks pos with
  | none => some (.error (.missingContainer pos), s)
  | some registered =>
    let container := s.containers registered.container
    if container.lifecycle ≠ .registered then some (.error (.missingContainer pos), s)
    else do
      let container := { container with
        lists := fun kind => (container.lists kind).unpack currentTick }
      let s := s.setContainer registered.container container
      let (result, state) ← s.state.setHead pos .block (container.lists .block).head
      match result with
      | .error error => some (.error error, { s with state })
      | .ok () =>
        let (result, state) ← state.setHead pos .fluid (container.lists .fluid).head
        some (result, { s with state })

def unregisterChunk (pos : ChunkPos) : Option (WorldTickScheduler T) :=
  match s.state.chunks pos with
  | none => some s
  | some registered => do
    let active := (registered.activeRank s.state.activeGeneration).isSome
    let block ← (s.state.activeDeadlines .block).removeHead active pos (registered.heads .block)
    let fluid ← (s.state.activeDeadlines .fluid).removeHead active pos (registered.heads .fluid)
    let container := s.containers registered.container
    some { s.setContainer registered.container { container with lifecycle := .finalized } with
      state := { s.state with
        chunks := update s.state.chunks pos none
        activeDeadlines := fun
          | .block => block
          | .fluid => fluid } }

def reconcileActiveChunks (activeChunks : List ChunkPos) :
    Option (Except TickSchedulerError Unit × WorldTickScheduler T) :=
  match activeChunks.find? fun pos => (s.state.chunks pos).isNone with
  | some pos => some (.error (.missingContainer pos), s)
  | none => do
    let state := { s.state with activeDeadlines := fun _ => .empty }.advanceActiveGeneration
    let (result, state) ← state.reconcileFrom state.activeGeneration 0 activeChunks
    some (result, { s with state })

/-- `schedule_block` and `schedule_fluid`. -/
def scheduleTick (kind : TickKind) (id : ContainerId) (tickType : T kind) (pos : BlockPos)
    (triggerTick : ℤ) (priority : TickPriority) (subTickOrder : ℤ) :
    Option (Except TickSchedulerError Bool × WorldTickScheduler T) :=
  let container := s.containers id
  let (added, list) :=
    (container.lists kind).schedule tickType pos triggerTick priority subTickOrder
  let s' := s.setContainer id (container.setList kind list)
  if container.lifecycle = .prePublication then some (.ok added, s')
  else if container.lifecycle = .finalized then some (.error (.missingContainer container.pos), s)
  else if !added then some (.ok false, s)
  else if list.head = (container.lists kind).head then some (.ok true, s')
  else
    match s.state.chunks container.pos with
    | none => some (.error (.missingContainer container.pos), s')
    | some registered =>
      if registered.container ≠ id then some (.error (.containerMismatch container.pos), s')
      else do
        let (result, state) ← s.state.setHead container.pos kind list.head
        some (result.map fun () => true, { s' with state })

def scheduleBlock (id : ContainerId) (block : T .block) (pos : BlockPos) (triggerTick : ℤ)
    (priority : TickPriority) (subTickOrder : ℤ) :
    Option (Except TickSchedulerError Bool × WorldTickScheduler T) :=
  s.scheduleTick .block id block pos triggerTick priority subTickOrder

def scheduleFluid (id : ContainerId) (fluid : T .fluid) (pos : BlockPos) (triggerTick : ℤ)
    (priority : TickPriority) (subTickOrder : ℤ) :
    Option (Except TickSchedulerError Bool × WorldTickScheduler T) :=
  s.scheduleTick .fluid id fluid pos triggerTick priority subTickOrder

def collectTicks (kind : TickKind) (currentTick : ℤ) (maxTicks : ℕ) :
    Option (ScheduledTickBatch (T kind) × WorldTickScheduler T) :=
  if maxTicks = 0 then some (⟨[], []⟩, s)
  else do
    let (due, state) ← s.state.takeDue kind currentTick
    if due = [] then some (⟨[], []⟩, { s with state })
    else
      let (batch, updates, containers) ←
        collectRegisteredTicks kind currentTick s.containers due maxTicks
      let state ← state.applyHeadUpdates kind updates
      some (batch, ⟨containers, state⟩)

def beginTick (currentTick : ℤ) (maxTicks : ℕ) :
    Option (ScheduledTickBatch (T .block) × WorldTickScheduler T) :=
  s.collectTicks .block currentTick maxTicks

def collectFluidTicks (currentTick : ℤ) (maxTicks : ℕ) :
    Option (ScheduledTickBatch (T .fluid) × WorldTickScheduler T) :=
  s.collectTicks .fluid currentTick maxTicks

end WorldTickScheduler

end Steel
