import Steel.Entity.EntityUnloading
import Steel.Lib.Run

/-! # Runs of the entity manager

A run makes calls one after the other on a new manager. Entities answer anew at each call, and a
panic ends the run.
-/

namespace Steel

open ManagerState List

variable {Box : Type} {fromAabb : Box → EntitySpatialCellBounds} {view : EntityView Box}
  {m m' : ManagerState Box}

inductive ManagerOperation where
  | onChunkLoaded (pos : ChunkPos)
  | updateChunkVisibility (pos : ChunkPos) (visibility : EntityVisibility)
  | beginChunkUnload (pos : ChunkPos)
  | finalizeChunkUnload (pos : ChunkPos)
  | addLiveEntity (entity : SharedEntity) (ownership : EntityOwnership)
  | addLiveEntityTree (entities : List SharedEntity) (ownership : EntityOwnership)
  | removeLiveEntity (id : EntityId) (reason : RemovalReason)
  | commitMove (id : EntityId) (newSection : SectionPos)
  | commitBoundingBoxChange (id : EntityId)
  | onChunkSaved (chunk : ChunkPos) (savedEntityIds : List EntityId)

/-- An operation and what entities answer while it runs. -/
structure ManagerCall (Box : Type) where
  view : EntityView Box
  operation : ManagerOperation

/-- A manager and the ids that entities have had in it. -/
structure ManagerHistory (Box : Type) where
  known : Finset EntityId
  manager : ManagerState Box

namespace ManagerHistory

def new : ManagerHistory Box := ⟨∅, .new⟩

def afterAdding (history : ManagerHistory Box) (entities : List SharedEntity) :
    Except AddEntityError EntityLifecycleChanges × ManagerState Box → ManagerHistory Box
  | (.error _, m) => ⟨history.known, m⟩
  | (.ok _, m) => ⟨history.known ∪ (entities.map SharedEntity.id).toFinset, m⟩

def perform (fromAabb : Box → EntitySpatialCellBounds) (history : ManagerHistory Box)
    (call : ManagerCall Box) : Except ManagerPanic (ManagerHistory Box) :=
  let m := history.manager
  match call.operation with
  | .onChunkLoaded pos =>
    (m.onChunkLoaded fromAabb call.view pos).map fun (_, m) => { history with manager := m }
  | .updateChunkVisibility pos visibility =>
    .ok { history with manager := (m.updateChunkVisibility pos visibility).2 }
  | .beginChunkUnload pos =>
    (m.beginChunkUnload fromAabb call.view pos).map fun (_, m) => { history with manager := m }
  | .finalizeChunkUnload pos => .ok { history with manager := (m.finalizeChunkUnload pos).2 }
  | .addLiveEntity entity ownership =>
    (m.addLiveEntity fromAabb call.view entity ownership).map (history.afterAdding [entity])
  | .addLiveEntityTree entities ownership =>
    (m.addLiveEntityTree fromAabb call.view entities ownership).map (history.afterAdding entities)
  | .removeLiveEntity id reason =>
    .ok { history with manager := (m.removeLiveEntity call.view id reason).2 }
  | .commitMove id newSection =>
    (m.commitMove fromAabb call.view id newSection).map fun (_, m) => { history with manager := m }
  | .commitBoundingBoxChange id =>
    (m.commitBoundingBoxChange fromAabb call.view id).map fun m => { history with manager := m }
  | .onChunkSaved chunk savedEntityIds =>
    .ok { history with manager := m.onChunkSaved chunk savedEntityIds }

def step (fromAabb : Box → EntitySpatialCellBounds)
    (state : Except ManagerPanic (ManagerHistory Box)) (call : ManagerCall Box) :
    Except ManagerPanic (ManagerHistory Box) :=
  state.bind fun history => history.perform fromAabb call

end ManagerHistory

/-- New entities have fresh ids, and only external ones always tick. -/
def ManagerOperation.AddsFresh (known : Finset EntityId) : ManagerOperation → Prop
  | addLiveEntity entity ownership =>
    entity.id ∉ known ∧ (entity.isAlwaysTicking = true → ownership = .external)
  | addLiveEntityTree entities ownership =>
    (∀ e ∈ entities, e.id ∉ known ∧ (e.isAlwaysTicking = true → ownership = .external)) ∧
      (entities.map SharedEntity.id).Nodup
  | _ => True

/-- The chunks whose entities are looked up, and those that entities come to, are in the range where
packed positions of sections are different. -/
def ManagerCall.InPackedRange (call : ManagerCall Box) : Prop :=
  match call.operation with
  | .updateChunkVisibility pos _ => pos.InPackedRange
  | .beginChunkUnload pos => pos.InPackedRange
  | .addLiveEntity entity _ => (call.view.sectionPos entity.id).chunk.InPackedRange
  | .addLiveEntityTree entities _ =>
    ∀ e ∈ entities, (call.view.sectionPos e.id).chunk.InPackedRange
  | .commitMove _ newSection => newSection.chunk.InPackedRange
  | _ => True

/-- Riding closes no cycle and new entities are new. -/
structure ManagerCall.Proper (known : Finset EntityId) (call : ManagerCall Box) : Prop where
  acyclic : Acyclic call.view.vehicle
  fresh : call.operation.AddsFresh known

/-- The guard of a run, which only looks at the ids that are known. -/
def Guards (P : Finset EntityId → ManagerCall Box → Prop)
    (state : Except ManagerPanic (ManagerHistory Box)) (call : ManagerCall Box) : Prop :=
  ∀ history, state = .ok history → P history.known call

/-- Every index has exactly the live entities that belong there, and no entity is held twice. -/
structure ManagerState.IndexesExact (fromAabb : Box → EntitySpatialCellBounds)
    (m : ManagerState Box) : Prop where
  id : ∀ id entry, m.liveById id = some entry →
    entry.entity.id = id ∧ entry.uuid = entry.entity.uuid
  uuid : ∀ uuid id, m.liveByUuid uuid = some id ↔ LiveWith m.liveById (uuid = ·.uuid) id
  sectionPos : Buckets m.bySection.lookup fun id key =>
    LiveWith m.liveById (key = ·.sectionPos.pack) id
  chunk : Buckets m.byChunk fun id chunk => LiveWith m.liveById (chunk = ·.chunk) id
  cell : Buckets m.bySpatialCell fun id cell =>
    LiveWith m.liveById (fun entry => cell ∈ (fromAabb entry.boundingBox).cells) id
  sorted : SortedBy m.bySpatialCell (rankIn m.liveById)
  accessible : Enumerates m.accessibleOrder (LiveWith m.liveById (m.isAccessible · = true))
  ticking : m.tickList.Ticks fun id entity => LiveWith m.liveById (fun entry =>
    entry.entity = entity ∧
      (effectiveVisibility entry (m.visibilityOf entry.chunk)).isTicking = true) id
  apart : Apart m.liveById m.waiting

theorem ManagerState.Exact.indexesExact {known : EntityId → Prop} (h : m.Exact fromAabb known) :
    m.IndexesExact fromAabb := by
  refine ⟨fun id entry hlive => ⟨h.indexed.id id entry hlive, (h.lawful id entry hlive).uuid⟩,
    h.indexed.uuid, h.indexed.sectionPos, h.indexed.chunk, h.indexed.cell.congr fun id cell => ?_,
    h.indexed.sorted, h.accessible.congr fun id => ?_,
    h.ticking.congr fun id entity => and_iff_left not_false, h.apart⟩
  · refine exists_congr fun entry => and_congr_right fun hlive => ?_
    dsimp only
    rw [h.indexed.box id entry hlive]
  · refine exists_congr fun entry => and_congr_right fun _ => ?_
    simp [isAccessible, isAccessibleAt]

theorem exact_new : (ManagerState.new : ManagerState Box).Exact fromAabb fun _ => False := by
  have hlive : ∀ id entry, (ManagerState.new : ManagerState Box).liveById id ≠ some entry := by
    intro id entry hlive
    cases hlive
  have hwith : ∀ {P : EntityEntry Box → Prop} {id : EntityId},
      ¬ LiveWith (ManagerState.new : ManagerState Box).liveById P id :=
    fun ⟨entry, hentry, _⟩ => hlive _ entry hentry
  have hbuckets : ∀ {κ : Type} {P : κ → EntityEntry Box → Prop}, Buckets (fun _ : κ => none)
      fun id k => LiveWith (ManagerState.new : ManagerState Box).liveById (P k) id :=
    buckets_empty.congr fun id k => ⟨False.elim, hwith⟩
  have hwaiting : ∀ entry, entry ∉ (ManagerState.new : ManagerState Box).waiting :=
    fun entry => not_mem_nil
  constructor
  · refine ⟨fun id entry h => absurd h (hlive id entry), fun uuid id => ⟨fun h => ?_,
      fun h => absurd h hwith⟩, hbuckets, hbuckets, hbuckets, fun cell ids h => ?_,
      fun id entry h => absurd h (hlive id entry), fun id entry h => absurd h (hlive id entry),
      fun id entry _ _ h => absurd h (hlive id entry)⟩
    · cases h
    · cases h
  · exact ⟨.nil, fun id => iff_of_false not_mem_nil hwith⟩
  · have hticking : ∀ {P : EntityEntry Box → Prop} {id : EntityId},
        ¬ (LiveWith (ManagerState.new : ManagerState Box).liveById P id ∧ ¬ False) :=
      fun h => hwith h.1
    refine ⟨fun id entity => iff_of_false (fun h => ?_) hticking, .nil, fun id =>
      iff_of_false not_mem_nil fun ⟨entity, h⟩ => hticking h⟩
    cases h
  · exact fun id entry h => absurd h (hlive id entry)
  · exact fun entry h => absurd h (hwaiting entry)
  · exact ⟨.nil, .nil, fun entry h => absurd h (hwaiting entry),
      fun entry h => absurd h (hwaiting entry)⟩

/-- The manager is exact, and all its entities have known ids. -/
def ManagerHistory.Exact (fromAabb : Box → EntitySpatialCellBounds)
    (history : ManagerHistory Box) : Prop :=
  history.manager.Exact fromAabb (· ∈ history.known)

namespace ManagerHistory

variable {history : ManagerHistory Box} {call : ManagerCall Box}

theorem exact_afterAdding {entities : List SharedEntity} {ownership : EntityOwnership}
    {state : Except AddEntityError EntityLifecycleChanges × ManagerState Box}
    (h : history.Exact fromAabb)
    (hadds : Adds fromAabb (· ∈ history.known) history.manager entities ownership state) :
    (history.afterAdding entities state).Exact fromAabb := by
  obtain ⟨result, m⟩ := state
  cases result with
  | error error =>
    obtain rfl : m = history.manager := hadds
    exact h
  | ok lifecycle =>
    refine hadds.1.mono (· ∈ history.known ∪ (entities.map SharedEntity.id).toFinset)
      fun id hid => ?_
    rw [Finset.mem_union, mem_toFinset]
    exact hid

theorem perform_exact (h : history.Exact fromAabb) (hproper : call.Proper history.known)
    (hrange : call.InPackedRange) :
    Returns (fun history' => history'.Exact fromAabb) (history.perform fromAabb call) := by
  obtain ⟨view, operation⟩ := call
  obtain ⟨hacyclic, hfresh⟩ := hproper
  cases operation with
  | onChunkLoaded pos =>
    refine Returns.map ?_
    exact h.onChunkLoaded.mono fun _ hstate => hstate.1
  | updateChunkVisibility pos visibility => exact (h.updateChunkVisibility hrange visibility).1
  | beginChunkUnload pos =>
    refine Returns.map ?_
    exact (h.beginChunkUnload hrange).mono fun _ hstate => hstate.1
  | finalizeChunkUnload pos => exact h.finalizeChunkUnload
  | addLiveEntity entity ownership =>
    have hadd : Addable (· ∈ history.known) view ownership [entity] :=
      ⟨forall_mem_singleton.2 hfresh.1, nodup_singleton _,
        forall_mem_singleton.2 hrange, forall_mem_singleton.2 hfresh.2⟩
    exact ((h.addLiveEntity hadd).mono fun _ hadds => exact_afterAdding h hadds).map
  | addLiveEntityTree entities ownership =>
    have hadd : Addable (· ∈ history.known) view ownership entities :=
      ⟨fun e he => (hfresh.1 e he).1, hfresh.2, hrange, fun e he => (hfresh.1 e he).2⟩
    exact ((h.addLiveEntityTree hadd).mono fun _ hadds => exact_afterAdding h hadds).map
  | removeLiveEntity id reason => exact (h.removeLiveEntity id reason).1
  | commitMove id newSection =>
    refine ((h.commitMove hacyclic id hrange).mono ?_).map
    rintro ⟨result, m⟩ hcommits
    cases result with
    | error error =>
      obtain rfl : m = history.manager := hcommits
      exact h
    | ok update => exact hcommits.1
  | commitBoundingBoxChange id =>
    obtain ⟨m', heq, hexact, -, -⟩ := h.commitBoundingBoxChange view id
    unfold perform
    dsimp only
    rw [heq]
    exact hexact
  | onChunkSaved chunk savedEntityIds => exact h.onChunkSaved savedEntityIds

theorem runs_exact {calls : List (ManagerCall Box)}
    {state : Except ManagerPanic (ManagerHistory Box)}
    (hguard : Guarded (step fromAabb)
      (Guards fun known call => call.Proper known ∧ call.InPackedRange) state calls)
    (h : Returns (fun history => history.Exact fromAabb) state) :
    Returns (fun history => history.Exact fromAabb) (runSteps (step fromAabb) state calls) := by
  refine hguard.invariant (I := Returns fun history => history.Exact fromAabb) ?_ h
  intro state call hstate hcall
  cases state with
  | error panic => exact hstate
  | ok history =>
    obtain ⟨hproper, hrange⟩ := hcall history rfl
    exact perform_exact hstate hproper hrange

/-- After every call the indexes are exact, and no assertion fails but that of the insertion
order. -/
theorem indexesExact_run {calls : List (ManagerCall Box)} (hguard : Guarded (step fromAabb)
      (Guards fun known call => call.Proper known ∧ call.InPackedRange) (.ok .new) calls) :
    Returns (fun history => history.manager.IndexesExact fromAabb)
      (runSteps (step fromAabb) (.ok .new) calls) := by
  have hnew : (ManagerHistory.new : ManagerHistory Box).Exact fromAabb :=
    exact_new.mono _ fun _ => False.elim
  exact (runs_exact hguard hnew).mono fun history hexact => hexact.indexesExact

def restingEntity : SharedEntity where
  id := 1
  uuid := 7
  isAlwaysTicking := false
  canSerialize := true
  clientTrackingRange := 10

def restingView (sectionPos : SectionPos) : EntityView EntitySpatialCellBounds where
  removalReason _ := none
  vehicle _ := none
  passengers _ := []
  hasExactlyOnePlayerPassenger _ := false
  sectionPos _ := sectionPos
  boundingBox _ := ⟨⟨0, 0, 0⟩, ⟨0, 0, 0⟩⟩

/-- An entity comes, is seen, moves to the next chunk, and its chunk unloads. -/
def lifeOfEntity : List (ManagerCall EntitySpatialCellBounds) :=
  [⟨restingView ⟨0, 0, 0⟩, .addLiveEntityTree [restingEntity] .managerOwned⟩,
    ⟨restingView ⟨0, 0, 0⟩, .updateChunkVisibility ⟨0, 0⟩ .ticking⟩,
    ⟨restingView ⟨1, 0, 0⟩, .onChunkLoaded ⟨1, 0⟩⟩,
    ⟨restingView ⟨1, 0, 0⟩, .commitMove 1 ⟨1, 0, 0⟩⟩,
    ⟨restingView ⟨1, 0, 0⟩, .beginChunkUnload ⟨1, 0⟩⟩]

theorem guarded_lifeOfEntity : Guarded (step id)
    (Guards fun known call => call.Proper known ∧ call.InPackedRange) (.ok .new) lifeOfEntity := by
  refine ⟨fun history hnew => ?_, fun _ _ => ?_, fun _ _ => ?_, fun _ _ => ?_, fun _ _ => ?_,
    trivial⟩
  · obtain rfl := Except.ok.inj hnew
    refine ⟨⟨acyclic_none, ?_, nodup_singleton _⟩, ?_⟩
    · exact forall_mem_singleton.2 ⟨by decide, nofun⟩
    · exact forall_mem_singleton.2 (by decide)
  · exact ⟨⟨acyclic_none, trivial⟩, (by decide : ChunkPos.InPackedRange ⟨0, 0⟩)⟩
  · exact ⟨⟨acyclic_none, trivial⟩, trivial⟩
  · exact ⟨⟨acyclic_none, trivial⟩, (by decide : ChunkPos.InPackedRange ⟨1, 0⟩)⟩
  · exact ⟨⟨acyclic_none, trivial⟩, (by decide : ChunkPos.InPackedRange ⟨1, 0⟩)⟩

theorem indexesExact_lifeOfEntity :
    ∃ history, runSteps (step id) (.ok .new) lifeOfEntity = .ok history ∧
      history.manager.IndexesExact id ∧ history.manager.waiting.length = 1 := by
  have hexact := @indexesExact_run _ id lifeOfEntity guarded_lifeOfEntity
  have hwaiting : (runSteps (step id) (.ok .new) lifeOfEntity).toOption.map
      (·.manager.waiting.length) = some 1 := by decide +kernel
  cases hrun : runSteps (step id) (.ok .new) lifeOfEntity with
  | error panic =>
    rw [hrun] at hwaiting
    cases hwaiting
  | ok history =>
    rw [hrun] at hexact hwaiting
    exact ⟨history, rfl, hexact, Option.some.inj hwaiting⟩

/-- The second chunk is so far away that its sections have the packed positions of the first one. -/
def aliasedChunks : List (ManagerCall EntitySpatialCellBounds) :=
  [⟨restingView ⟨0, 0, 0⟩, .addLiveEntityTree [restingEntity] .managerOwned⟩,
    ⟨restingView ⟨0, 0, 0⟩, .updateChunkVisibility ⟨0, 0⟩ .tracked⟩,
    ⟨restingView ⟨0, 0, 0⟩, .updateChunkVisibility ⟨4194304, 0⟩ .tracked⟩,
    ⟨restingView ⟨0, 0, 0⟩, .updateChunkVisibility ⟨4194304, 0⟩ .hidden⟩]

theorem not_indexesExact_aliasedChunks :
    Guarded (step id) (Guards fun known call => call.Proper known) (.ok .new) aliasedChunks ∧
      ¬ Returns (fun history => history.manager.IndexesExact id)
        (runSteps (step id) (.ok .new) aliasedChunks) := by
  constructor
  · refine ⟨fun history hnew => ?_, fun _ _ => ⟨acyclic_none, trivial⟩,
      fun _ _ => ⟨acyclic_none, trivial⟩, fun _ _ => ⟨acyclic_none, trivial⟩, trivial⟩
    obtain rfl := Except.ok.inj hnew
    refine ⟨acyclic_none, ?_, nodup_singleton _⟩
    exact forall_mem_singleton.2 ⟨by decide, nofun⟩
  · have hlost : (runSteps (step id) (.ok .new) aliasedChunks).toOption.map (fun history =>
        (history.manager.accessibleOrder,
          (history.manager.liveById 1).map (history.manager.isAccessible ·))) =
        some ([], some true) := by decide +kernel
    intro hexact
    cases hrun : runSteps (step id) (.ok .new) aliasedChunks with
    | error panic =>
      rw [hrun] at hlost
      cases hlost
    | ok history =>
      rw [hrun] at hexact hlost
      obtain ⟨horder, hentry⟩ := Prod.ext_iff.1 (Option.some.inj hlost)
      obtain ⟨entry, hlive, haccessible⟩ := Option.map_eq_some_iff.1 hentry
      have hmem := (hexact.accessible.mem 1).2 ⟨entry, hlive, haccessible⟩
      rw [show history.manager.accessibleOrder = [] from horder] at hmem
      cases hmem

end ManagerHistory

end Steel
