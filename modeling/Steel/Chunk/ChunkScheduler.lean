import Steel.Chunk.TicketChanges

/-! # The sequence of ticket operations and scheduling epochs

Ticket operations wait in a queue. A scheduling epoch takes the queue, applies it to the ticket
manager and hands the level changes over; they are committed to the chunk map at a boundary, and
only then the revision of the epoch is published. The commit of a level is deferred while a save
preparation holds the unloading chunk.
-/

namespace Steel

open List AList Option Function Nat

open ChunkTicketManager (LevelView)

inductive ChunkTicketOperation where
  | add (pos : ChunkPos) (ticket : ChunkTicket)
  | remove (pos : ChunkPos) (ticket : ChunkTicket)

def ChunkTicketOperation.apply (ticketManager : ChunkTicketManager) :
    ChunkTicketOperation → ChunkTicketManager
  | add pos ticket => ticketManager.addTicket pos ticket
  | remove pos ticket => (ticketManager.removeTicket pos ticket).2

/-- `take_changes` -/
def ChunkTicketManager.takeChanges (ticketManager : ChunkTicketManager) :
    List LevelChange × ChunkTicketManager :=
  (ticketManager.changes, { ticketManager with changes := [] })

structure QueuedChunkTicketOperation where
  revision : ℕ
  operation : ChunkTicketOperation

structure PendingChunkTicketOperations where
  nextRevision : ℕ
  operations : List QueuedChunkTicketOperation
  recycledOperations : List QueuedChunkTicketOperation

namespace PendingChunkTicketOperations

def new : PendingChunkTicketOperations := ⟨0, [], []⟩

/-- The next revision, unless the revisions are exhausted and the assertion fails. -/
def advance (revision : ℕ) : Option ℕ := if revision ≠ 2 ^ 64 - 1 then some (revision + 1) else none

variable (pending : PendingChunkTicketOperations)

def pushBatch (operations : List ChunkTicketOperation) : Option ℕ × PendingChunkTicketOperations :=
  match operations with
  | [] => (none, pending)
  | first :: operations =>
    match advance pending.nextRevision with
    | none => (none, pending)
    | some revision =>
      (some revision,
        { pending with
          nextRevision := revision
          operations := pending.operations ++ ⟨revision, first⟩ ::
            operations.map fun operation => ⟨revision, operation⟩ })

def push (operation : ChunkTicketOperation) : Option ℕ × PendingChunkTicketOperations :=
  match advance pending.nextRevision with
  | none => (none, pending)
  | some revision =>
    (some revision,
      { pending with
        nextRevision := revision
        operations := pending.operations ++ [⟨revision, operation⟩] })

/-- The buffer that has been given back takes the place of the operations. -/
def take : List QueuedChunkTicketOperation × PendingChunkTicketOperations :=
  (pending.operations,
    { pending with operations := pending.recycledOperations, recycledOperations := [] })

def recycle (_ : List QueuedChunkTicketOperation) : PendingChunkTicketOperations :=
  { pending with recycledOperations := [] }

end PendingChunkTicketOperations

open PendingChunkTicketOperations (pushBatch advance recycle)

inductive SaveLifecycle where
  | active
  | unloading
  | preparing
  deriving DecidableEq

structure ChunkHolder where
  saveLifecycle : SaveLifecycle
  loadLevel : Option ChunkTicketLevel
  simulationLevel : Option ChunkTicketLevel

namespace ChunkHolder

variable (holder : ChunkHolder)

/-- `compare_exchange` -/
def exchange (current new : SaveLifecycle) : Option ChunkHolder :=
  if holder.saveLifecycle = current then some { holder with saveLifecycle := new } else none

/-- The assertion fails where there is no result. -/
def beginUnloading : Option ChunkHolder := holder.exchange .active .unloading

def tryBeginSavePreparation : Option ChunkHolder := holder.exchange .unloading .preparing

/-- The end of a save preparation, where its guard is dropped. -/
def endSavePreparation : Option ChunkHolder := holder.exchange .preparing .unloading

def tryReviveFromUnloading : Option ChunkHolder := holder.exchange .unloading .active

end ChunkHolder

open ChunkHolder

structure DeferredChunkRevival where
  loadLevel : ChunkTicketLevel
  simulationLevel : Option ChunkTicketLevel

/-- The active chunks, those that are being unloaded, and the ticket states that wait for the save
preparation of an unloading chunk. -/
structure ChunkMap where
  chunks : HashMap ChunkPos ChunkHolder
  unloadingChunks : HashMap ChunkPos ChunkHolder
  deferredRevivals : HashMap ChunkPos DeferredChunkRevival

/-- `insert_sync`: an entry that is there stays. -/
def insertSync (m : HashMap ChunkPos ChunkHolder) (pos : ChunkPos) (holder : ChunkHolder) :
    HashMap ChunkPos ChunkHolder :=
  if (m.lookup pos).isSome then m else m.insert pos holder

def eraseAll {α : Type} (m : HashMap ChunkPos α) (positions : List ChunkPos) :
    HashMap ChunkPos α :=
  positions.foldl (fun m pos => m.erase pos) m

namespace ChunkMap

variable (map : ChunkMap)

/-- The levels of an active chunk are set. -/
def activate (pos : ChunkPos) (holder : ChunkHolder) (level : ChunkTicketLevel)
    (simulationLevel : Option ChunkTicketLevel) : ChunkMap :=
  { map with
    chunks := map.chunks.insert pos
      { holder with loadLevel := some level, simulationLevel := simulationLevel } }

/-- `update_chunk_level`; there is no result where `begin_unloading` panics. -/
def updateChunkLevel : LevelChange → Option ChunkMap
  | ⟨pos, none, _⟩ =>
    let map := { map with deferredRevivals := map.deferredRevivals.erase pos }
    match map.chunks.lookup pos with
    | none => some map
    | some holder => holder.beginUnloading.map fun holder =>
      { map with
        chunks := map.chunks.erase pos
        unloadingChunks := insertSync map.unloadingChunks pos
          { holder with loadLevel := none, simulationLevel := none } }
  | ⟨pos, some level, simulationLevel⟩ =>
    match map.chunks.lookup pos with
    | some holder => some (map.activate pos holder level simulationLevel)
    | none =>
      match map.unloadingChunks.lookup pos with
      | none =>
        some (map.activate pos ⟨.active, level, simulationLevel⟩ level simulationLevel)
      | some holder =>
        let unloadingChunks := map.unloadingChunks.erase pos
        match holder.tryReviveFromUnloading with
        | some holder =>
          some ({ map with unloadingChunks := unloadingChunks }.activate pos holder level
            simulationLevel)
        | none =>
          some { map with
            unloadingChunks := insertSync unloadingChunks pos holder
            deferredRevivals := map.deferredRevivals.insert pos ⟨level, simulationLevel⟩ }

/-- The deferred revivals of positions that have not changed follow the changes. -/
def mergeDeferredRevivals (order : Iteration ChunkPos) (changes : List LevelChange) :
    List LevelChange × ChunkMap :=
  let deferred := eraseAll map.deferredRevivals (changes.map LevelChange.pos)
  (changes ++ (order.keys deferred).filterMap fun pos => (deferred.lookup pos).map fun revival =>
      ⟨pos, some revival.loadLevel, revival.simulationLevel⟩,
    { map with deferredRevivals := ∅ })

def stagedRevivals (changes : List LevelChange) : List ChunkPos :=
  ((changes.filter fun change => change.newLevel.isSome ∧
      (map.unloadingChunks.lookup change.pos).isSome).map LevelChange.pos) ++
    map.deferredRevivals.keys

/-- Chunks are settled if they need neither light nor a save and nothing else refers to them. A
save preparation refers to its chunk. -/
def processUnloads (staged : List ChunkPos) (settled : ChunkPos → Bool) : ChunkMap :=
  { map with
    unloadingChunks := eraseAll map.unloadingChunks <| map.unloadingChunks.keys.filter fun pos =>
      pos ∉ staged ∧ settled pos ∧
        (map.unloadingChunks.lookup pos).any fun holder => holder.saveLifecycle ≠ .preparing }

/-- A step of the lifecycle of an unloading chunk. -/
def exchangeUnloading (pos : ChunkPos) (exchange : ChunkHolder → Option ChunkHolder) : ChunkMap :=
  match (map.unloadingChunks.lookup pos).bind exchange with
  | none => map
  | some holder => { map with unloadingChunks := map.unloadingChunks.insert pos holder }

end ChunkMap

structure PreparedChunkSchedulingEpoch where
  ticketManager : ChunkTicketManager
  appliedRevision : ℕ
  changes : List LevelChange

inductive ChunkSchedulingState where
  | idle (ticketManager : ChunkTicketManager) (appliedRevision : ℕ)
  | running
  | ready (epoch : PreparedChunkSchedulingEpoch)

/-- What a thread that owns the ticket manager does next. -/
inductive EpochPhase where
  /-- Take the queue. -/
  | spawned (ticketManager : ChunkTicketManager) (appliedRevision : ℕ)
  /-- Apply the operations that have been taken. -/
  | applying (ticketManager : ChunkTicketManager) (latestRevision : ℕ)
    (operations : List QueuedChunkTicketOperation)
  /-- Update the levels and take the changes. -/
  | updating (ticketManager : ChunkTicketManager) (latestRevision : ℕ)
  /-- `process_unloads` -/
  | unloading (epoch : PreparedChunkSchedulingEpoch)
  /-- `finish_epoch` -/
  | finishing (epoch : PreparedChunkSchedulingEpoch)
  /-- `merge_deferred_revivals` -/
  | merging (epoch : PreparedChunkSchedulingEpoch)
  /-- Commit the changes that are left to the chunk map, publish the revision and fork the next
  epoch. -/
  | committing (epoch : PreparedChunkSchedulingEpoch)

namespace EpochPhase

/-- The manager, the latest revision that has been applied to it, and the changes that are left to
commit. -/
def epoch : EpochPhase → PreparedChunkSchedulingEpoch
  | spawned ticketManager revision | applying ticketManager revision _
  | updating ticketManager revision => ⟨ticketManager, revision, []⟩
  | unloading epoch | finishing epoch | merging epoch | committing epoch => epoch

/-- The operations that have been taken and not yet applied. -/
def remaining : EpochPhase → List QueuedChunkTicketOperation
  | applying _ _ operations => operations
  | _ => []

/-- Whether operations may have been applied whose levels are not yet updated. -/
def applies : EpochPhase → Bool
  | applying .. | updating .. => true
  | _ => false

end EpochPhase

open EpochPhase

/-- The coordinator, the threads that own a ticket manager, and the chunk map. The rest is
bookkeeping: the revisions that have been given out and the operations that have been submitted. -/
structure ChunkScheduler where
  pending : PendingChunkTicketOperations
  state : ChunkSchedulingState
  committedRevision : ℕ
  tasks : List EpochPhase
  chunkMap : ChunkMap
  revisions : List ℕ
  submitted : List QueuedChunkTicketOperation
  panicked : Bool

/-- What the state does not determine: the orders in which maps are iterated, and the chunks that
are settled. -/
structure Circumstances where
  order : UpdateOrder
  revivals : Iteration ChunkPos
  settled : ChunkPos → Bool

namespace ChunkScheduler

def new (ticketManager : ChunkTicketManager) : ChunkScheduler where
  pending := .new
  state := .idle ticketManager 0
  committedRevision := 0
  tasks := []
  chunkMap := ⟨∅, ∅, ∅⟩
  revisions := []
  submitted := []
  panicked := false

variable (scheduler : ChunkScheduler)

inductive Action where
  | queueTicketOperation (operation : ChunkTicketOperation)
  | queueTicketOperations (operations : List ChunkTicketOperation)
  | beginSavePreparation (pos : ChunkPos)
  | endSavePreparation (pos : ChunkPos)
  /-- `take_boundary_step`, and what `advance_scheduling` does with it -/
  | boundaryStep
  /-- The next step of a thread that owns a ticket manager. -/
  | work (index : ℕ) (circumstances : Circumstances)

def submit (result : Option ℕ × PendingChunkTicketOperations)
    (operations : List ChunkTicketOperation) : ChunkScheduler :=
  { scheduler with
    pending := result.2
    revisions := scheduler.revisions ++ result.1.toList
    submitted := scheduler.submitted ++
      result.1.toList.flatMap fun revision =>
        operations.map fun operation => ⟨revision, operation⟩ }

def boundaryStep : ChunkScheduler :=
  match scheduler.state with
  | .idle ticketManager appliedRevision =>
    { scheduler with
      state := .running
      tasks := scheduler.tasks ++ [.spawned ticketManager appliedRevision] }
  | .running => scheduler
  | .ready epoch =>
    { scheduler with state := .running, tasks := scheduler.tasks ++ [.merging epoch] }

/-- A step of a thread: what it does afterwards, if it is not done, and the rest. -/
def work (circumstances : Circumstances) : EpochPhase → Option EpochPhase × ChunkScheduler
  | .spawned ticketManager appliedRevision =>
    let (operations, pending) := scheduler.pending.take
    (some (.applying ticketManager appliedRevision operations),
      { scheduler with pending := pending })
  | .applying ticketManager _ (queued :: operations) =>
    (some (.applying (queued.operation.apply ticketManager) queued.revision operations), scheduler)
  | .applying ticketManager latestRevision [] =>
    (some (.updating ticketManager latestRevision),
      { scheduler with pending := scheduler.pending.recycle [] })
  | .updating ticketManager latestRevision =>
    let (changes, ticketManager) := (ticketManager.runAllUpdates circumstances.order).takeChanges
    (some (.unloading ⟨ticketManager, latestRevision, changes⟩), scheduler)
  | .unloading epoch =>
    (some (.finishing epoch),
      { scheduler with
        chunkMap := scheduler.chunkMap.processUnloads
          (scheduler.chunkMap.stagedRevivals epoch.changes) circumstances.settled })
  | .finishing epoch =>
    match scheduler.state with
    | .running => (none, { scheduler with state := .ready epoch })
    | _ => (none, { scheduler with panicked := true })
  | .merging epoch =>
    let (changes, chunkMap) :=
      scheduler.chunkMap.mergeDeferredRevivals circumstances.revivals epoch.changes
    (some (.committing { epoch with changes := changes }), { scheduler with chunkMap := chunkMap })
  | .committing ⟨ticketManager, appliedRevision, change :: changes⟩ =>
    match scheduler.chunkMap.updateChunkLevel change with
    | some chunkMap =>
      (some (.committing ⟨ticketManager, appliedRevision, changes⟩),
        { scheduler with chunkMap := chunkMap })
    | none => (none, { scheduler with panicked := true })
  | .committing ⟨ticketManager, appliedRevision, []⟩ =>
    (some (.spawned ticketManager appliedRevision),
      { scheduler with committedRevision := appliedRevision })

def step : Action → ChunkScheduler
  | .queueTicketOperation operation =>
    scheduler.submit (scheduler.pending.push operation) [operation]
  | .queueTicketOperations operations =>
    scheduler.submit (scheduler.pending.pushBatch operations) operations
  | .beginSavePreparation pos =>
    { scheduler with
      chunkMap := scheduler.chunkMap.exchangeUnloading pos tryBeginSavePreparation }
  | .endSavePreparation pos =>
    { scheduler with
      chunkMap := scheduler.chunkMap.exchangeUnloading pos endSavePreparation }
  | .boundaryStep => scheduler.boundaryStep
  | .work index circumstances =>
    match scheduler.tasks[index]? with
    | none => scheduler
    | some task =>
      let (next, after) := scheduler.work circumstances task
      { after with
        tasks := scheduler.tasks.take index ++ next.toList ++ scheduler.tasks.drop (index + 1) }

end ChunkScheduler

section Maps

variable {α : Type} {m : HashMap ChunkPos α} {n : HashMap ChunkPos ChunkHolder} {p pos : ChunkPos}

theorem lookup_eraseAll (positions : List ChunkPos) :
    (eraseAll m positions).lookup p = if p ∈ positions then none else m.lookup p := by
  unfold eraseAll
  induction positions generalizing m with
  | nil => simp
  | cons pos positions ih =>
    rw [foldl_cons, ih]
    by_cases hp : p = pos
    · subst hp
      simp
    · simp [hp]

theorem lookup_insertSync_isSome {holder : ChunkHolder} :
    ((insertSync n pos holder).lookup pos).isSome := by
  unfold insertSync
  split_ifs with hsome
  · exact hsome
  · simp

theorem lookup_insertSync_ne {holder : ChunkHolder} (h : p ≠ pos) :
    (insertSync n pos holder).lookup p = n.lookup p := by
  unfold insertSync
  split_ifs
  · rfl
  · exact lookup_insert_ne h

end Maps

namespace ChunkMap

/-- The levels of the chunks, where a deferred revival stands for the chunk that it waits for. -/
def view (map : ChunkMap) : LevelView where
  levels pos :=
    match map.deferredRevivals.lookup pos with
    | some revival => some revival.loadLevel
    | none => (map.chunks.lookup pos).bind loadLevel
  simulationLevels pos :=
    match map.deferredRevivals.lookup pos with
    | some revival => revival.simulationLevel
    | none => (map.chunks.lookup pos).bind simulationLevel

/-- A chunk of the map is active and has a level; a revival waits only for an unloading chunk. -/
structure SoundAt (map : ChunkMap) (p : ChunkPos) : Prop where
  active : ∀ holder ∈ map.chunks.lookup p,
    holder.saveLifecycle = .active ∧ holder.loadLevel.isSome
  deferred : (map.deferredRevivals.lookup p).isSome →
    map.chunks.lookup p = none ∧ (map.unloadingChunks.lookup p).isSome

def Sound (map : ChunkMap) : Prop := ∀ p, map.SoundAt p

variable {map map' : ChunkMap} {unloadingChunks : HashMap ChunkPos ChunkHolder}

section

variable (h : map.Sound)

include h

theorem Sound.of_unloading
    (hkept : ∀ p, (map.deferredRevivals.lookup p).isSome → (map.unloadingChunks.lookup p).isSome →
      (unloadingChunks.lookup p).isSome) :
    Sound { map with unloadingChunks := unloadingChunks } := fun p =>
  { active := (h p).active
    deferred := fun hp => by
      obtain ⟨hchunks, hunloading⟩ := (h p).deferred hp
      exact ⟨hchunks, hkept p hp hunloading⟩ }

theorem Sound.exchangeUnloading (pos : ChunkPos) (exchange : ChunkHolder → Option ChunkHolder) :
    (map.exchangeUnloading pos exchange).Sound ∧
      (map.exchangeUnloading pos exchange).view = map.view ∧
      (map.exchangeUnloading pos exchange).deferredRevivals = map.deferredRevivals := by
  unfold ChunkMap.exchangeUnloading
  split
  · exact ⟨h, rfl, rfl⟩
  · refine ⟨h.of_unloading fun p _ hp => ?_, rfl, rfl⟩
    by_cases hpos : p = pos
    · subst hpos
      simp
    · rwa [lookup_insert_ne hpos]

theorem Sound.processUnloads (changes : List LevelChange) (settled : ChunkPos → Bool) :
    (map.processUnloads (map.stagedRevivals changes) settled).Sound := by
  refine h.of_unloading fun p hdeferred hp => ?_
  rw [lookup_eraseAll, if_neg]
  · exact hp
  · intro hmem
    have hstaged : p ∈ map.stagedRevivals changes :=
      mem_append_right _ (mem_keys.1 (lookup_isSome.1 hdeferred))
    have hnot := (of_decide_eq_true (mem_filter.1 hmem).2).1
    exact hnot hstaged

theorem Sound.update {pos : ChunkPos} {level simulationLevel}
    (hne : ∀ p ≠ pos, map'.chunks.lookup p = map.chunks.lookup p ∧
      map'.unloadingChunks.lookup p = map.unloadingChunks.lookup p ∧
      map'.deferredRevivals.lookup p = map.deferredRevivals.lookup p)
    (hpos : map'.SoundAt pos) (hlevel : map'.view.levels pos = level)
    (hsimulation : map'.view.simulationLevels pos = simulationLevel) :
    map'.Sound ∧ map'.view = map.view.apply ⟨pos, level, simulationLevel⟩ ∧
      ∀ p ≠ pos, map'.deferredRevivals.lookup p = map.deferredRevivals.lookup p := by
  refine ⟨fun p => ?_, ?_, fun p hp => (hne p hp).2.2⟩
  · by_cases hp : p = pos
    · rwa [hp]
    · obtain ⟨hchunks, hunloading, hdeferred⟩ := hne p hp
      constructor
      · rw [hchunks]
        exact (h p).active
      · rw [hchunks, hunloading, hdeferred]
        exact (h p).deferred
  · have happly : [⟨pos, level, simulationLevel⟩].foldl LevelView.apply map.view = map'.view := by
      refine ChunkTicketManager.foldl_apply ?_ ?_ fun p hp => ?_
      · simp [hlevel]
      · simp [hsimulation]
      · obtain ⟨hchunks, -, hdeferred⟩ := hne p (by simpa using hp)
        simp [view, hchunks, hdeferred]
    exact happly.symm

theorem Sound.activate {pos : ChunkPos} {holder : ChunkHolder} (level : ChunkTicketLevel)
    (simulationLevel : Option ChunkTicketLevel) (hactive : holder.saveLifecycle = .active)
    (hfree : map.deferredRevivals.lookup pos = none)
    (hunloading : ∀ p ≠ pos, unloadingChunks.lookup p = map.unloadingChunks.lookup p) :
    let map' := { map with unloadingChunks := unloadingChunks }.activate pos holder level
      simulationLevel
    map'.Sound ∧ map'.view = map.view.apply ⟨pos, some level, simulationLevel⟩ ∧
      ∀ p ≠ pos, map'.deferredRevivals.lookup p = map.deferredRevivals.lookup p := by
  refine h.update (fun p hp => ⟨?_, hunloading p hp, rfl⟩) ⟨?_, ?_⟩ ?_ ?_
  · exact lookup_insert_ne hp
  · simp [ChunkMap.activate, hactive]
  · simp [ChunkMap.activate, hfree]
  · simp [view, ChunkMap.activate, hfree]
  · simp [view, ChunkMap.activate, hfree]

/-- An update sets the levels of its position, at once or as a revival. -/
theorem Sound.updateChunkLevel {change : LevelChange}
    (hfree : map.deferredRevivals.lookup change.pos = none)
    (hcovered : change.newLevel = none → change.newSimulationLevel = none) :
    ∃ map', map.updateChunkLevel change = some map' ∧ map'.Sound ∧
      map'.view = map.view.apply change ∧
      ∀ p ≠ change.pos, map'.deferredRevivals.lookup p = map.deferredRevivals.lookup p := by
  obtain ⟨pos, newLevel, simulationLevel⟩ := change
  simp only at hfree hcovered ⊢
  cases newLevel with
  | none =>
    obtain rfl := hcovered rfl
    cases hchunk : map.chunks.lookup pos with
    | none =>
      simp only [ChunkMap.updateChunkLevel, hchunk]
      refine ⟨_, rfl, ?_⟩
      refine h.update (fun p hp => ⟨rfl, rfl, lookup_erase_ne hp⟩) ⟨?_, ?_⟩ ?_ ?_
      · simp [hchunk]
      · simp
      · simp [view, hchunk]
      · simp [view, hchunk]
    | some holder =>
      have hactive := ((h pos).active holder hchunk).1
      simp only [ChunkMap.updateChunkLevel, hchunk, beginUnloading,
        exchange, hactive, if_true, map_some]
      refine ⟨_, rfl, ?_⟩
      refine h.update (fun p hp => ⟨lookup_erase_ne hp, lookup_insertSync_ne hp,
        lookup_erase_ne hp⟩) ⟨?_, ?_⟩ ?_ ?_
      · simp
      · simp
      · simp [view]
      · simp [view]
  | some level =>
    cases hchunk : map.chunks.lookup pos with
    | some holder =>
      simp only [ChunkMap.updateChunkLevel, hchunk]
      refine ⟨_, rfl, ?_⟩
      exact h.activate level simulationLevel ((h pos).active holder hchunk).1 hfree
        fun p _ => rfl
    | none =>
      cases hunloading : map.unloadingChunks.lookup pos with
      | none =>
        simp only [ChunkMap.updateChunkLevel, hchunk, hunloading]
        refine ⟨_, rfl, ?_⟩
        exact h.activate level simulationLevel rfl hfree fun p _ => rfl
      | some holder =>
        by_cases hlifecycle : holder.saveLifecycle = .unloading
        · simp only [ChunkMap.updateChunkLevel, hchunk, hunloading,
            tryReviveFromUnloading, exchange, hlifecycle, if_true]
          refine ⟨_, rfl, ?_⟩
          exact h.activate level simulationLevel rfl hfree fun p hp => lookup_erase_ne hp
        · simp only [ChunkMap.updateChunkLevel, hchunk, hunloading,
            tryReviveFromUnloading, exchange, hlifecycle, if_false]
          refine ⟨_, rfl, ?_⟩
          refine h.update (fun p hp => ⟨rfl, ?_, lookup_insert_ne hp⟩) ⟨?_, ?_⟩ ?_ ?_
          · rw [lookup_insertSync_ne hp, lookup_erase_ne hp]
          · simp [hchunk]
          · exact fun _ => ⟨hchunk, lookup_insertSync_isSome⟩
          · simp [view]
          · simp [view]

end

end ChunkMap

/-- The operations that were applied in an epoch, and how its levels were updated. -/
structure Epoch where
  operations : List QueuedChunkTicketOperation
  order : UpdateOrder

def applyAll (ticketManager : ChunkTicketManager) (operations : List QueuedChunkTicketOperation) :
    ChunkTicketManager :=
  operations.foldl (fun ticketManager queued => queued.operation.apply ticketManager) ticketManager

/-- The ticket manager after the epochs. -/
def replay (ticketManager : ChunkTicketManager) (epochs : List Epoch) : ChunkTicketManager :=
  epochs.foldl (fun ticketManager epoch =>
    ((applyAll ticketManager epoch.operations).runAllUpdates epoch.order).takeChanges.2)
    ticketManager

variable (ticketManager : ChunkTicketManager)

theorem view_apply (operation : ChunkTicketOperation) :
    (operation.apply ticketManager).view = ticketManager.view := by
  cases operation with
  | add pos ticket => rfl
  | remove pos ticket =>
    exact @ChunkTicketManager.view_step_of_not_run _ (.remove pos ticket) (by simp)

theorem covered_runAllUpdates {m : ChunkTicketManager} (order : UpdateOrder)
    (h : ∀ p, m.view.levels p = none → m.view.simulationLevels p = none) (p : ChunkPos) :
    (m.runAllUpdates order).view.levels p = none →
      (m.runAllUpdates order).view.simulationLevels p = none := by
  unfold ChunkTicketManager.runAllUpdates
  cases m.dirty with
  | false => exact h p
  | true => exact ChunkTicketManager.propagateAll_covered p

/-- The view shows the levels of the manager but for the changes that are left to commit. -/
structure Shown (view : LevelView) (epoch : PreparedChunkSchedulingEpoch) : Prop where
  covered : ∀ p, epoch.ticketManager.view.levels p = none →
    epoch.ticketManager.view.simulationLevels p = none
  nodup : (epoch.changes.map LevelChange.pos).Nodup
  level : ∀ c ∈ epoch.changes, c.newLevel = epoch.ticketManager.view.levels c.pos
  simulation : ∀ c ∈ epoch.changes,
    c.newSimulationLevel = epoch.ticketManager.view.simulationLevels c.pos
  rest : ∀ p, p ∉ epoch.changes.map LevelChange.pos →
    view.levels p = epoch.ticketManager.view.levels p ∧
      view.simulationLevels p = epoch.ticketManager.view.simulationLevels p

namespace Shown

variable {view : LevelView} {ticketManager : ChunkTicketManager} {revision : ℕ}
variable {changes : List LevelChange} {epoch : PreparedChunkSchedulingEpoch}

theorem foldl_apply (h : Shown view epoch) :
    epoch.changes.foldl LevelView.apply view = epoch.ticketManager.view :=
  ChunkTicketManager.foldl_apply h.level h.simulation h.rest

theorem apply (h : Shown view ⟨ticketManager, revision, []⟩) (operation : ChunkTicketOperation)
    (latest : ℕ) : Shown view ⟨operation.apply ticketManager, latest, []⟩ := by
  obtain ⟨hcovered, hnodup, hlevel, hsimulation, hrest⟩ := h
  rw [← view_apply ticketManager operation] at hcovered hrest
  exact ⟨hcovered, hnodup, nofun, nofun, hrest⟩

theorem runAllUpdates (h : Shown view ⟨ticketManager, revision, []⟩) (order : UpdateOrder) :
    let m := ticketManager.runAllUpdates order
    Shown view ⟨m.takeChanges.2, revision, m.takeChanges.1⟩ := by
  intro m
  have hdiff := ChunkTicketManager.diff_runAllUpdates ticketManager order
  have hview : view = ticketManager.view := h.foldl_apply
  exact ⟨covered_runAllUpdates order h.covered, hdiff.nodup, hdiff.level, hdiff.simulation,
    hview ▸ hdiff.complete⟩

theorem commit {change : LevelChange}
    (h : Shown view ⟨ticketManager, revision, change :: changes⟩) :
    Shown (view.apply change) ⟨ticketManager, revision, changes⟩ where
  covered := h.covered
  nodup := (nodup_cons.1 h.nodup).2
  level c hc := h.level c (mem_cons_of_mem change hc)
  simulation c hc := h.simulation c (mem_cons_of_mem change hc)
  rest := by
    intro p hp
    simp only [LevelView.apply]
    by_cases hpos : p = change.pos
    · subst hpos
      rw [update_self, update_self]
      exact ⟨h.level change mem_cons_self, h.simulation change mem_cons_self⟩
    · rw [update_of_ne hpos, update_of_ne hpos]
      exact h.rest p (by simpa [hpos] using hp)

theorem unsimulated {change : LevelChange}
    (h : Shown view epoch) (hmem : change ∈ epoch.changes) (hnone : change.newLevel = none) :
    change.newSimulationLevel = none := by
  rw [h.simulation change hmem]
  exact h.covered change.pos (h.level change hmem ▸ hnone)

end Shown

section Merge

variable {map : ChunkMap} {order : Iteration ChunkPos} {changes : List LevelChange}

/-- The deferred revivals join the changes; none is left. -/
theorem mergeDeferredRevivals_eq : ∃ revived : List LevelChange,
    map.mergeDeferredRevivals order changes =
      (changes ++ revived, { map with deferredRevivals := ∅ }) ∧
    (revived.map LevelChange.pos).Nodup ∧
    (∀ c ∈ revived, c.pos ∉ changes.map LevelChange.pos ∧
      ∃ revival ∈ map.deferredRevivals.lookup c.pos,
        c.newLevel = some revival.loadLevel ∧ c.newSimulationLevel = revival.simulationLevel) ∧
    ∀ p, p ∉ (changes ++ revived).map LevelChange.pos → map.deferredRevivals.lookup p = none := by
  refine ⟨_, rfl, ?_, ?_, ?_⟩
  · rw [map_filterMap]
    refine (order.nodup_keys _).filterMap ?_
    intro p q r hp hq
    simp only [Option.mem_def, Option.map_map, Option.map_eq_some_iff, comp] at hp hq
    obtain ⟨_, -, rfl⟩ := hp
    obtain ⟨_, -, rfl⟩ := hq
    rfl
  · intro c hc
    obtain ⟨p, hp, hmap⟩ := mem_filterMap.1 hc
    obtain ⟨revival, hlookup, rfl⟩ := Option.map_eq_some_iff.1 hmap
    rw [lookup_eraseAll] at hlookup
    split_ifs at hlookup with hmem
    exact ⟨hmem, revival, hlookup, rfl, rfl⟩
  · intro p hp
    rw [map_append, mem_append, not_or] at hp
    cases hlookup : map.deferredRevivals.lookup p with
    | none => rfl
    | some revival =>
      have hkept : (eraseAll map.deferredRevivals (changes.map LevelChange.pos)).lookup p =
          some revival := by
        rw [lookup_eraseAll, if_neg hp.1, hlookup]
      refine absurd ?_ hp.2
      refine mem_map.2 ⟨⟨p, some revival.loadLevel, revival.simulationLevel⟩, ?_, rfl⟩
      refine mem_filterMap.2 ⟨p, Iteration.mem_keys.2 (by rw [hkept]; rfl), ?_⟩
      rw [hkept]
      rfl

theorem Shown.merge {ticketManager : ChunkTicketManager} {revision : ℕ}
    (h : Shown map.view ⟨ticketManager, revision, changes⟩) :
    let merged := map.mergeDeferredRevivals order changes
    Shown merged.2.view ⟨ticketManager, revision, merged.1⟩ := by
  obtain ⟨revived, heq, hnodup, hrevived, hrest⟩ :=
    @mergeDeferredRevivals_eq map order changes
  have hlevels : ∀ c ∈ revived, c.newLevel = ticketManager.view.levels c.pos ∧
      c.newSimulationLevel = ticketManager.view.simulationLevels c.pos := by
    intro c hc
    obtain ⟨hfresh, revival, hlookup, hlevel, hsimulation⟩ := hrevived c hc
    obtain ⟨hlevel', hsimulation'⟩ := h.rest c.pos hfresh
    simp only [ChunkMap.view, mem_def.1 hlookup] at hlevel' hsimulation'
    exact ⟨hlevel.trans hlevel', hsimulation.trans hsimulation'⟩
  simp only [heq]
  constructor
  case covered => exact h.covered
  case nodup =>
    rw [map_append]
    refine h.nodup.append hnodup fun p hp hp' => ?_
    obtain ⟨c, hc, rfl⟩ := mem_map.1 hp'
    exact (hrevived c hc).1 hp
  case level =>
    intro c hc
    rcases mem_append.1 hc with hc | hc
    · exact h.level c hc
    · exact (hlevels c hc).1
  case simulation =>
    intro c hc
    rcases mem_append.1 hc with hc | hc
    · exact h.simulation c hc
    · exact (hlevels c hc).2
  case rest =>
    intro p hp
    have hdeferred := hrest p hp
    rw [map_append, mem_append, not_or] at hp
    have hview := h.rest p hp.1
    simp only [ChunkMap.view, hdeferred] at hview
    simpa [ChunkMap.view] using hview

end Merge

namespace ChunkScheduler

/-- Those that own the ticket manager, with what they do next. -/
def owners (s : ChunkScheduler) : List EpochPhase :=
  (match s.state with
    | .idle ticketManager revision => [.spawned ticketManager revision]
    | .running => []
    | .ready epoch => [.merging epoch]) ++ s.tasks

def Before (a b : List QueuedChunkTicketOperation) : Prop :=
  ∀ x ∈ a, ∀ y ∈ b, x.revision < y.revision

theorem pairwise_before {l : List (List QueuedChunkTicketOperation)}
    {a b : List QueuedChunkTicketOperation} : (l ++ [a, b]).Pairwise Before ↔
      l.Pairwise Before ∧ (∀ c ∈ l, Before c a) ∧ (∀ c ∈ l, Before c b) ∧ Before a b := by
  simp only [pairwise_append, pairwise_pair, mem_cons, not_mem_nil, or_false, forall_eq_or_imp,
    forall_eq, forall_and]
  tauto

/-- The operations of the epochs, those that have been taken since, and those that wait. -/
def batches (s : ChunkScheduler) (phase : EpochPhase) (epochs : List Epoch)
    (done : List QueuedChunkTicketOperation) : List (List QueuedChunkTicketOperation) :=
  epochs.map Epoch.operations ++ [done ++ phase.remaining, s.pending.operations]

structure Ledger (initial : ChunkTicketManager) (s : ChunkScheduler) (phase : EpochPhase)
    (epochs : List Epoch) (done : List QueuedChunkTicketOperation) : Prop where
  order : s.submitted = (s.batches phase epochs done).flatten
  manager : phase.epoch.ticketManager = applyAll (replay initial epochs) done
  fresh : phase.applies = false → done = []
  recycled : s.pending.recycledOperations = []
  revisions : s.revisions.Pairwise (· < ·)
  revisions_le : ∀ revision ∈ s.revisions, revision ≤ s.pending.nextRevision
  submitted_le : ∀ queued ∈ s.submitted, queued.revision ≤ s.pending.nextRevision
  applied_le : phase.epoch.appliedRevision ≤ s.pending.nextRevision
  committed_le : s.committedRevision ≤ s.pending.nextRevision
  waiting : ∀ queued ∈ s.pending.operations, phase.epoch.appliedRevision < queued.revision
  before : (s.batches phase epochs done).Pairwise Before

/-- What is committed has been shown after some of the epochs. -/
def Published (shown : List Epoch → Prop) (s : ChunkScheduler) (epochs : List Epoch) : Prop :=
  ∃ published, published <+: epochs ∧ shown published ∧
    ∀ queued ∈ s.submitted, queued.revision ≤ s.committedRevision →
      queued ∈ published.flatMap Epoch.operations

structure Holds (initial : ChunkTicketManager) (shown : List Epoch → Prop) (s : ChunkScheduler)
    (phase : EpochPhase) (epochs : List Epoch) (done : List QueuedChunkTicketOperation) :
    Prop where
  calm : s.panicked = false
  owner : s.owners = [phase]
  ledger : Ledger initial s phase epochs done
  sound : s.chunkMap.Sound
  levels : Shown s.chunkMap.view phase.epoch
  free : ∀ epoch, phase = .committing epoch → ∀ c ∈ epoch.changes,
    s.chunkMap.deferredRevivals.lookup c.pos = none
  published : Published shown s epochs

def Invariant (initial : ChunkTicketManager) (shown : List Epoch → Prop) (s : ChunkScheduler) :
    Prop :=
  ∃ phase epochs done, Holds initial shown s phase epochs done

section Ledger

variable {initial : ChunkTicketManager} {s : ChunkScheduler} {phase : EpochPhase}
variable {epochs : List Epoch} {done operations : List QueuedChunkTicketOperation}
variable {ticketManager : ChunkTicketManager} {revision : ℕ}

theorem submit_pushBatch (s : ChunkScheduler) (operations : List ChunkTicketOperation) :
    s.submit (s.pending.pushBatch operations) operations = s ∨
    ∃ batch : List QueuedChunkTicketOperation,
      (∀ queued ∈ batch, queued.revision = s.pending.nextRevision + 1) ∧
      s.submit (s.pending.pushBatch operations) operations = { s with
        pending := ⟨s.pending.nextRevision + 1, s.pending.operations ++ batch,
          s.pending.recycledOperations⟩
        revisions := s.revisions ++ [s.pending.nextRevision + 1]
        submitted := s.submitted ++ batch } := by
  cases operations with
  | nil => exact Or.inl (by simp [submit, pushBatch])
  | cons first operations =>
    cases hadvance : advance s.pending.nextRevision with
    | none => exact Or.inl (by simp [submit, pushBatch, hadvance])
    | some revision =>
      obtain rfl : s.pending.nextRevision + 1 = revision := by
        unfold advance at hadvance
        split_ifs at hadvance
        exact Option.some.inj hadvance
      refine Or.inr ⟨(first :: operations).map fun operation =>
        ⟨s.pending.nextRevision + 1, operation⟩, ?_, ?_⟩
      · intro queued hqueued
        obtain ⟨operation, -, rfl⟩ := mem_map.1 hqueued
        rfl
      · simp [submit, pushBatch, hadvance]

theorem Ledger.submit (h : Ledger initial s phase epochs done)
    (operations : List ChunkTicketOperation) :
    Ledger initial (s.submit (s.pending.pushBatch operations) operations) phase epochs done := by
  obtain heq | ⟨batch, hbatch, heq⟩ := submit_pushBatch s operations
  · rwa [heq]
  rw [heq]
  have hgreater : ∀ revision ≤ s.pending.nextRevision, ∀ queued ∈ batch,
      revision < queued.revision := by
    intro revision hle queued hqueued
    rw [hbatch queued hqueued]
    exact lt_succ_of_le hle
  have hbefore : ∀ operations ∈ s.batches phase epochs done,
      Before operations s.pending.operations →
        Before operations (s.pending.operations ++ batch) := by
    intro operations hmem hbefore x hx y hy
    rcases mem_append.1 hy with hy | hy
    · exact hbefore x hx y hy
    · have hsubmitted : x ∈ s.submitted := h.order ▸ mem_flatten_of_mem hmem hx
      exact hgreater _ (h.submitted_le x hsubmitted) y hy
  obtain ⟨hepochs, hdone, hwaiting, htaken⟩ := pairwise_before.1 h.before
  constructor
  case order => simp [h.order, batches]
  case manager => exact h.manager
  case fresh => exact h.fresh
  case recycled => exact h.recycled
  case revisions =>
    refine pairwise_append.2 ⟨h.revisions, pairwise_singleton _ _, ?_⟩
    intro revision hrevision revision' hrevision'
    rw [mem_singleton.1 hrevision']
    exact lt_succ_of_le (h.revisions_le revision hrevision)
  case revisions_le =>
    intro revision hrevision
    rcases mem_append.1 hrevision with hrevision | hrevision
    · exact le_succ_of_le (h.revisions_le revision hrevision)
    · exact (mem_singleton.1 hrevision).le
  case submitted_le =>
    intro queued hqueued
    rcases mem_append.1 hqueued with hqueued | hqueued
    · exact le_succ_of_le (h.submitted_le queued hqueued)
    · exact (hbatch queued hqueued).le
  case applied_le => exact le_succ_of_le h.applied_le
  case committed_le => exact le_succ_of_le h.committed_le
  case waiting =>
    intro queued hqueued
    rcases mem_append.1 hqueued with hqueued | hqueued
    · exact h.waiting queued hqueued
    · exact hgreater _ h.applied_le queued hqueued
  case before =>
    refine pairwise_before.2 ⟨hepochs, hdone, fun c hc => ?_, ?_⟩
    · exact hbefore c (mem_append_left _ hc) (hwaiting c hc)
    · exact hbefore _ (mem_append_right _ mem_cons_self) htaken

theorem Ledger.take (h : Ledger initial s (.spawned ticketManager revision) epochs done) :
    Ledger initial { s with pending := s.pending.take.2 }
      (.applying ticketManager revision s.pending.operations) epochs done := by
  obtain rfl := h.fresh rfl
  obtain ⟨hepochs, -, hwaiting, -⟩ := pairwise_before.1 h.before
  have htake : s.pending.take.2 = ⟨s.pending.nextRevision, [], []⟩ := by
    rw [PendingChunkTicketOperations.take, h.recycled]
  rw [htake]
  refine { h with
    order := ?_
    fresh := nofun
    recycled := rfl
    waiting := nofun
    before := pairwise_before.2 ⟨hepochs, hwaiting, fun c _ x _ => nofun, fun x _ => nofun⟩ }
  simpa [remaining, batches] using h.order

theorem Ledger.apply {queued : QueuedChunkTicketOperation}
    (h : Ledger initial s (.applying ticketManager revision (queued :: operations)) epochs done) :
    Ledger initial s (.applying (queued.operation.apply ticketManager) queued.revision operations)
      epochs (done ++ [queued]) := by
  have hmem : queued ∈ s.submitted := by
    rw [h.order]
    simp [batches, remaining]
  obtain ⟨-, -, -, htaken⟩ := pairwise_before.1 h.before
  refine { h with
    order := ?_
    manager := ?_
    fresh := nofun
    applied_le := h.submitted_le queued hmem
    waiting := htaken queued (mem_append_right _ mem_cons_self)
    before := ?_ }
  · simpa [remaining, batches] using h.order
  · have hmanager : ticketManager = applyAll (replay initial epochs) done := h.manager
    rw [epoch, applyAll, foldl_append, hmanager]
    rfl
  · simpa [remaining, batches] using h.before

theorem Ledger.update (h : Ledger initial s (.updating ticketManager revision) epochs done)
    (order : UpdateOrder) :
    let m := ticketManager.runAllUpdates order
    Ledger initial s (.unloading ⟨m.takeChanges.2, revision, m.takeChanges.1⟩)
      (epochs ++ [⟨done, order⟩]) [] := by
  intro m
  refine { h with
    order := ?_
    manager := ?_
    fresh := fun _ => rfl
    before := ?_ }
  · simpa [remaining, batches] using h.order
  · have hmanager : ticketManager = applyAll (replay initial epochs) done := h.manager
    simp only [epoch, replay, foldl_append, foldl_cons, foldl_nil, m, hmanager]
    rfl
  · obtain ⟨hepochs, hdone, hwaiting, htaken⟩ := pairwise_before.1 h.before
    simp only [remaining, append_nil] at hdone htaken
    rw [batches, map_append, map_singleton]
    refine pairwise_before.2 ⟨?_, fun c _ x _ => nofun, ?_, nofun⟩
    · refine pairwise_append.2 ⟨hepochs, pairwise_singleton _ _, fun c hc d hd => ?_⟩
      rw [mem_singleton.1 hd]
      exact hdone c hc
    · intro c hc
      rcases mem_append.1 hc with hc | hc
      · exact hwaiting c hc
      · rw [mem_singleton.1 hc]
        exact htaken

/-- All operations up to the revision of an epoch are operations of the epochs. -/
theorem Ledger.complete {epoch : PreparedChunkSchedulingEpoch}
    (h : Ledger initial s (.committing epoch) epochs done) :
    ∀ queued ∈ s.submitted, queued.revision ≤ epoch.appliedRevision →
      queued ∈ epochs.flatMap Epoch.operations := by
  intro queued hqueued hle
  obtain rfl := h.fresh rfl
  have horder : s.submitted = epochs.flatMap Epoch.operations ++ s.pending.operations := by
    simpa [batches, remaining, flatMap_def] using h.order
  rw [horder] at hqueued
  rcases mem_append.1 hqueued with hqueued | hqueued
  · exact hqueued
  · exact absurd hle (not_le.2 (h.waiting queued hqueued))

end Ledger

section Steps

variable {initial : ChunkTicketManager} {shown : List Epoch → Prop} {s : ChunkScheduler}
variable {phase : EpochPhase} {epochs : List Epoch} {done : List QueuedChunkTicketOperation}

section

variable (h : Holds initial shown s phase epochs done)

include h

theorem Holds.submit (operations : List ChunkTicketOperation) :
    Holds initial shown (s.submit (s.pending.pushBatch operations) operations) phase epochs
      done where
  calm := h.calm
  owner := h.owner
  ledger := h.ledger.submit operations
  sound := h.sound
  levels := h.levels
  free := h.free
  published := by
    obtain ⟨published, hprefix, hshown, hall⟩ := h.published
    refine ⟨published, hprefix, hshown, ?_⟩
    obtain heq | ⟨batch, hbatch, heq⟩ := submit_pushBatch s operations
    · rwa [heq]
    rw [heq]
    intro queued hqueued hle
    rcases mem_append.1 hqueued with hqueued | hqueued
    · exact hall queued hqueued hle
    · rw [hbatch queued hqueued] at hle
      exact absurd (hle.trans h.ledger.committed_le) (not_succ_le_self _)

theorem Holds.exchangeUnloading (pos : ChunkPos) (exchange : ChunkHolder → Option ChunkHolder) :
    Holds initial shown { s with chunkMap := s.chunkMap.exchangeUnloading pos exchange } phase
      epochs done := by
  obtain ⟨hsound, hview, hdeferred⟩ := h.sound.exchangeUnloading pos exchange
  exact { h with
    ledger := { h.ledger with }
    sound := hsound
    levels := by
      simp only [hview]
      exact h.levels
    free := by
      simp only [hdeferred]
      exact h.free }

theorem Holds.boundaryStep :
    Holds initial shown s.boundaryStep phase epochs done := by
  have howner := h.owner
  unfold ChunkScheduler.boundaryStep
  unfold owners at howner
  split
  · rename_i ticketManager revision hstate
    simp only [hstate, singleton_append, cons.injEq] at howner
    exact { h with
      owner := by simp [owners, howner]
      ledger := { h.ledger with } }
  · exact h
  · rename_i epoch hstate
    simp only [hstate, singleton_append, cons.injEq] at howner
    exact { h with
      owner := by simp [owners, howner]
      ledger := { h.ledger with } }

/-- A thread that owns the manager is the only owner. -/
theorem Holds.running {index : ℕ} {task : EpochPhase} (htask : s.tasks[index]? = some task) :
    s.state = .running ∧ s.tasks = [phase] ∧ index = 0 ∧ task = phase := by
  have howner := h.owner
  unfold owners at howner
  cases hstate : s.state with
  | idle ticketManager revision =>
    simp only [hstate, singleton_append, cons.injEq] at howner
    simp [howner.2] at htask
  | running =>
    simp only [hstate, nil_append] at howner
    rw [howner] at htask ⊢
    obtain ⟨hindex, htask⟩ := List.getElem?_eq_some_iff.1 htask
    obtain rfl : index = 0 := lt_one_iff.1 hindex
    exact ⟨rfl, rfl, rfl, htask.symm⟩
  | ready epoch =>
    simp only [hstate, singleton_append, cons.injEq] at howner
    simp [howner.2] at htask

theorem Holds.work (hstate : s.state = .running) (hshown : ∀ epochs, phase.epoch.changes = [] →
      s.chunkMap.view = (replay initial epochs).view → shown epochs)
    (circumstances : Circumstances) :
    Invariant initial shown { (s.work circumstances phase).2 with
      tasks := (s.work circumstances phase).1.toList } := by
  cases phase with
  | spawned ticketManager revision =>
    refine ⟨.applying ticketManager revision s.pending.operations, epochs, done, ?_⟩
    exact { h with
      owner := by simp [owners, ChunkScheduler.work, hstate, PendingChunkTicketOperations.take]
      ledger := { h.ledger.take with }
      levels := h.levels
      free := nofun }
  | applying ticketManager revision operations =>
    cases operations with
    | nil =>
      refine ⟨.updating ticketManager revision, epochs, done, ?_⟩
      exact { h with
        owner := by simp [owners, ChunkScheduler.work, hstate]
        ledger := { h.ledger with
          fresh := nofun
          recycled := rfl }
        levels := h.levels
        free := nofun }
    | cons queued operations =>
      refine ⟨.applying (queued.operation.apply ticketManager) queued.revision operations, epochs,
        done ++ [queued], ?_⟩
      exact { h with
        owner := by simp [owners, ChunkScheduler.work, hstate]
        ledger := { h.ledger.apply with }
        levels := h.levels.apply queued.operation queued.revision
        free := nofun }
  | updating ticketManager revision =>
    let m := ticketManager.runAllUpdates circumstances.order
    refine ⟨.unloading ⟨m.takeChanges.2, revision, m.takeChanges.1⟩,
      epochs ++ [⟨done, circumstances.order⟩], [], ?_⟩
    obtain ⟨published, hprefix, hpublished⟩ := h.published
    exact { h with
      owner := by simp [owners, ChunkScheduler.work, hstate, m]
      ledger := { h.ledger.update circumstances.order with }
      levels := h.levels.runAllUpdates circumstances.order
      free := nofun
      published := ⟨published, hprefix.trans (prefix_append _ _), hpublished⟩ }
  | unloading epoch =>
    refine ⟨.finishing epoch, epochs, done, ?_⟩
    exact { h with
      owner := by simp [owners, ChunkScheduler.work, hstate]
      ledger := { h.ledger with }
      sound := h.sound.processUnloads epoch.changes circumstances.settled
      levels := h.levels
      free := nofun }
  | finishing epoch =>
    refine ⟨.merging epoch, epochs, done, ?_⟩
    simp only [ChunkScheduler.work, hstate]
    exact { h with
      owner := by simp [owners]
      ledger := { h.ledger with }
      levels := h.levels
      free := nofun }
  | merging epoch =>
    let merged := s.chunkMap.mergeDeferredRevivals circumstances.revivals epoch.changes
    refine ⟨.committing { epoch with changes := merged.1 }, epochs, done, ?_⟩
    obtain ⟨revived, heq, -⟩ := @mergeDeferredRevivals_eq s.chunkMap
      circumstances.revivals epoch.changes
    exact { h with
      owner := by simp [owners, ChunkScheduler.work, hstate, merged]
      ledger := { h.ledger with }
      sound := by
        simp only [ChunkScheduler.work, heq]
        exact fun p => ⟨(h.sound p).active, by simp⟩
      levels := @Shown.merge _ _ _ _ epoch.appliedRevision h.levels
      free := by
        intro epoch' _ c _
        simp only [ChunkScheduler.work, heq]
        exact lookup_empty _ }
  | committing epoch =>
    obtain ⟨ticketManager, revision, changes⟩ := epoch
    cases changes with
    | nil =>
      refine ⟨.spawned ticketManager revision, epochs, done, ?_⟩
      obtain rfl := h.ledger.fresh rfl
      have hmanager : ticketManager = replay initial epochs := h.ledger.manager
      have hview : s.chunkMap.view = ticketManager.view := h.levels.foldl_apply
      exact { h with
        owner := by simp [owners, ChunkScheduler.work, hstate]
        ledger := { h.ledger with
          committed_le := h.ledger.applied_le }
        levels := h.levels
        free := nofun
        published := ⟨epochs, prefix_rfl, hshown epochs rfl (hmanager ▸ hview),
          h.ledger.complete⟩ }
    | cons change changes =>
      refine ⟨.committing ⟨ticketManager, revision, changes⟩, epochs, done, ?_⟩
      obtain ⟨map, heq, hsound, hview, hdeferred⟩ := h.sound.updateChunkLevel
        (h.free _ rfl change mem_cons_self) (h.levels.unsimulated mem_cons_self)
      simp only [ChunkScheduler.work, heq]
      exact { h with
        owner := by simp [owners, hstate]
        ledger := { h.ledger with }
        sound := hsound
        levels := by
          simp only [hview]
          exact h.levels.commit
        free := by
          rintro _ ⟨⟩ c hc
          have hne : c.pos ≠ change.pos := by
            rintro heq
            exact (nodup_cons.1 h.levels.nodup).1 (heq ▸ mem_map_of_mem hc)
          simp only [hdeferred _ hne]
          exact h.free _ rfl c (mem_cons_of_mem change hc) }

end

end Steps

/-- The changes that are left to commit to the chunk map. -/
def uncommitted (s : ChunkScheduler) : List LevelChange :=
  s.owners.flatMap fun phase => phase.epoch.changes

variable {initial : ChunkTicketManager} {shown : List Epoch → Prop}

theorem Invariant.step {s : ChunkScheduler} (hi : Invariant initial shown s)
    (hshown : ∀ epochs, s.uncommitted = [] → s.chunkMap.view = (replay initial epochs).view →
      shown epochs) (action : Action) : Invariant initial shown (s.step action) := by
  obtain ⟨phase, epochs, done, h⟩ := id hi
  cases action with
  | queueTicketOperation operation => exact ⟨phase, epochs, done, h.submit [operation]⟩
  | queueTicketOperations operations => exact ⟨phase, epochs, done, h.submit operations⟩
  | beginSavePreparation pos => exact ⟨phase, epochs, done, h.exchangeUnloading pos _⟩
  | endSavePreparation pos => exact ⟨phase, epochs, done, h.exchangeUnloading pos _⟩
  | boundaryStep => exact ⟨phase, epochs, done, h.boundaryStep⟩
  | work index circumstances =>
    simp only [ChunkScheduler.step]
    cases htask : s.tasks[index]? with
    | none => exact hi
    | some task =>
      obtain ⟨hstate, htasks, rfl, rfl⟩ := h.running htask
      have hwork := h.work hstate (fun epochs hchanges hview =>
        hshown epochs (by simpa [uncommitted, h.owner] using hchanges) hview) circumstances
      simpa [htasks] using hwork

theorem Invariant.mono {shown shown' : List Epoch → Prop}
    {s : ChunkScheduler} (h : ∀ epochs, shown epochs → shown' epochs)
    (hi : Invariant initial shown s) : Invariant initial shown' s := by
  obtain ⟨phase, epochs, done, hi⟩ := hi
  obtain ⟨published, hprefix, hshown, hall⟩ := hi.published
  exact ⟨phase, epochs, done, { hi with
    published := ⟨published, hprefix, h published hshown, hall⟩ }⟩

/-- The ticket manager of a new chunk map: only restored tickets have been added. -/
def restore (restored : List (ChunkPos × ChunkTicket)) : ChunkTicketManager :=
  restored.foldl (fun ticketManager entry => ticketManager.addTicket entry.1 entry.2) .new

/-- A chunk is loaded and unloaded; while it is being prepared for a save it is loaded again. -/
def revival : List Action :=
  let pos : ChunkPos := ⟨0, 0⟩
  let ticket := ChunkTicket.loading ⟨maxLevelRaw, le_rfl⟩
  let epoch := replicate 6 (.work 0 ⟨.id, .id, fun _ => false⟩)
  let commit := .boundaryStep :: replicate 3 (.work 0 ⟨.id, .id, fun _ => false⟩)
  .boundaryStep :: .queueTicketOperation (.add pos ticket) :: epoch ++ commit ++
    .queueTicketOperation (.remove pos ticket) :: epoch ++ commit ++
    [.beginSavePreparation pos, .queueTicketOperation (.add pos ticket)] ++ epoch ++ commit

end ChunkScheduler

end Steel
