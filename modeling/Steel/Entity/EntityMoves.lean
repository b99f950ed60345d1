import Steel.Entity.EntityOperations

/-! # Moves of entities

A committed move takes an entity to another section, box and visibility. It stays the same entity,
so that only its own places in the indexes change.
-/

namespace Steel

open Function (update)

open ManagerState List

variable {Box : Type} {fromAabb : Box → EntitySpatialCellBounds} {view : EntityView Box}
  {m m' : ManagerState Box} {known : EntityId → Prop} {id : EntityId}
  {entry entry' : EntityEntry Box}

/-- The entries are of the same entity, the second one is in the section. -/
structure EntityEntry.MovesTo (newSection : SectionPos) (entry entry' : EntityEntry Box) :
    Prop where
  entity : entry'.entity = entry.entity
  uuid : entry'.uuid = entry.uuid
  sectionPos : entry'.sectionPos = newSection
  chunk : entry'.chunk = newSection.chunk
  ownership : entry'.ownership = entry.ownership

variable {newSection : SectionPos}

theorem EntityEntry.Lawful.movesTo (h : entry.Lawful known)
    (hmoves : entry.MovesTo newSection entry') (hnew : newSection.chunk.InPackedRange) :
    entry'.Lawful known where
  known := hmoves.entity ▸ h.known
  uuid := by rw [hmoves.uuid, hmoves.entity, h.uuid]
  chunk := by rw [hmoves.chunk, hmoves.sectionPos]
  inPackedRange := hmoves.chunk ▸ hnew
  alwaysTicking := by
    rw [hmoves.entity, hmoves.ownership]
    exact h.alwaysTicking

namespace ManagerState

/-- The live entry of the id is replaced, and the lists of accessible and ticking entities follow
the visibility of its chunk. -/
structure Moves (m m' : ManagerState Box) (id : EntityId) (entry entry' : EntityEntry Box) :
    Prop where
  live : m'.liveById = update m.liveById id (some entry')
  accessible : m'.accessibleOrder =
    if m.isAccessible entry && !m.isAccessible entry' then m.accessibleOrder.erase id
    else if !m.isAccessible entry && m.isAccessible entry' then
      OrderedEntityIds.insert m.accessibleOrder id
    else m.accessibleOrder
  ticks : m'.tickList =
    let old := (effectiveVisibility entry (m.visibilityOf entry.chunk)).isTicking
    let new := (effectiveVisibility entry (m.visibilityOf entry'.chunk)).isTicking
    if old && !new then (m.tickList.remove id).2
    else if !old && new then (m.tickList.add entry.entity).2
    else m.tickList
  chunks : m.SameChunks m'

theorem Moves.of_chunk_eq (hlive : m'.liveById = update m.liveById id (some entry'))
    (hownership : entry'.ownership = entry.ownership) (hchunk : entry'.chunk = entry.chunk)
    (haccessible : m'.accessibleOrder = m.accessibleOrder) (hticks : m'.tickList = m.tickList)
    (hchunks : m.SameChunks m') : m.Moves m' id entry entry' := by
  refine ⟨hlive, ?_, ?_, hchunks⟩
  · rw [isAccessible, isAccessible, hownership, hchunk, haccessible]
    cases m.isAccessibleAt entry.ownership entry.chunk with
    | true => rfl
    | false => rfl
  · rw [hchunk, hticks]
    cases (effectiveVisibility entry (m.visibilityOf entry.chunk)).isTicking with
    | true => rfl
    | false => rfl

namespace Indexed

variable {newSection : SectionPos}

/-- A live entry leaves the buckets of its section and chunk for those of another one. -/
theorem relocate (h : m.Indexed fromAabb) (hlive : m.liveById id = some entry)
    (hmoves : entry.MovesTo newSection entry')
    {sections sections' : HashMap PackedSectionPos OrderedEntityIds}
    (hremoved : sections.lookup = removeFromBucket m.bySection.lookup entry.sectionPos.pack id)
    (hinserted : sections'.lookup = update sections.lookup newSection.pack
      (some (OrderedEntityIds.insert ((sections.lookup newSection.pack).getD []) id))) :
    Buckets sections'.lookup (fun a key =>
        LiveWith (update m.liveById id (some entry')) (key = ·.sectionPos.pack) a) ∧
      Buckets (update (removeFromBucket m.byChunk entry.chunk id) newSection.chunk
          (some (OrderedEntityIds.insert
            ((removeFromBucket m.byChunk entry.chunk id newSection.chunk).getD []) id)))
        fun a chunk => LiveWith (update m.liveById id (some entry')) (chunk = ·.chunk) a
    := by
  have hsection := h.sectionPos.remove entry.sectionPos.pack id
  have hchunk := h.chunk.remove entry.chunk id
  rw [← hremoved] at hsection
  have hgone : ∀ {P : EntityEntry Box → Prop},
      ¬ (LiveWith m.liveById P id ∧ ¬ (id = id ∧ P entry)) :=
    fun hP => hP.2 ⟨rfl, (liveWith_of_some hlive).1 hP.1⟩
  constructor
  · rw [hinserted]
    refine (hsection.put hgone (OrderedEntityIds.insert_perm fun hmem =>
      hgone (hsection.mem_getD.1 hmem))).congr fun a key => ?_
    rw [← liveWith_replaced hlive, hmoves.sectionPos]
  · refine (hchunk.put hgone (OrderedEntityIds.insert_perm fun hmem =>
      hgone (hchunk.mem_getD.1 hmem))).congr fun a chunk => ?_
    rw [← liveWith_replaced hlive, hmoves.chunk]

def movedEntry (fromAabb : Box → EntitySpatialCellBounds) (view : EntityView Box)
    (newSection : SectionPos) (sectionOrder : ℕ) (entry : EntityEntry Box) : EntityEntry Box :=
  { entry with
    sectionPos := newSection
    chunk := newSection.chunk
    boundingBox := view.boundingBox entry.entity.id
    spatialCells := (fromAabb (view.boundingBox entry.entity.id)).cells
    sectionOrder := sectionOrder }

theorem movesTo_movedEntry {sectionOrder : ℕ} :
    entry.MovesTo newSection (movedEntry fromAabb view newSection sectionOrder entry) :=
  ⟨rfl, rfl, rfl, rfl, rfl⟩

def moveUpdate (m : ManagerState Box) (id : EntityId) (newSection : SectionPos)
    (entry : EntityEntry Box) : EntityMoveUpdate where
  entityId := id
  oldSection := entry.sectionPos
  newSection := newSection
  oldChunk := entry.chunk
  newChunk := newSection.chunk
  oldAccessible := m.isAccessible entry
  newAccessible := m.isAccessibleAt entry.ownership newSection.chunk
  oldTicking := (effectiveVisibility entry (m.visibilityOf entry.chunk)).isTicking
  newTicking := (effectiveVisibility entry (m.visibilityOf newSection.chunk)).isTicking

variable (view) in
theorem moveEntry_within (h : m.Indexed fromAabb) (hlive : m.liveById id = some entry)
    (hchunk : entry.chunk = entry.sectionPos.chunk) :
    ∃ m', m.moveEntry fromAabb view id entry.sectionPos entry =
        .ok (moveUpdate m id entry.sectionPos entry, m') ∧
      m.Moves m' id entry (movedEntry fromAabb view entry.sectionPos entry.sectionOrder entry) ∧
      m'.Indexed fromAabb := by
  have hid : entry.entity.id = id := h.id id entry hlive
  obtain ⟨entry', hentry'⟩ : ∃ entry', entry' =
      movedEntry fromAabb view entry.sectionPos entry.sectionOrder entry := ⟨_, rfl⟩
  have hmoves : entry.MovesTo entry.sectionPos entry' := hentry' ▸ movesTo_movedEntry
  have hsame : entry'.chunk = entry.chunk := hmoves.chunk.trans hchunk.symm
  have horder : entry'.sectionOrder = entry.sectionOrder := by
    rw [hentry']
    rfl
  have haccessible : m.isAccessibleAt entry.ownership entry.sectionPos.chunk =
      m.isAccessible entry := by
    rw [← hchunk]
    rfl
  have hticking : effectiveVisibility entry (m.visibilityOf entry.sectionPos.chunk) =
      effectiveVisibility entry (m.visibilityOf entry.chunk) := by
    rw [← hchunk]
  rw [← hentry']
  unfold ManagerState.moveEntry
  dsimp only
  by_cases hcells : entry.spatialCells = (fromAabb (view.boundingBox id)).cells
  · rw [if_pos ⟨rfl, hcells⟩]
    have hbox : { entry with boundingBox := view.boundingBox id } = entry' := by
      rw [hentry', movedEntry, hid, ← hcells, ← hchunk]
    refine ⟨_, rfl, .of_chunk_eq ?_ hmoves.ownership hsame rfl rfl ⟨rfl, rfl, rfl⟩,
      h.replaceBox hlive hcells⟩
    rw [← hbox]
  · obtain ⟨index, hinsert, hindex, hsorted⟩ := h.replaceCells hlive entry' m rfl rfl
      (by rw [hentry']; exact (fromAabb _).nodup_cells)
      fun a e hne ha => queryOrder_ne (horder ▸ h.order_ne hlive hne ha)
    refine ⟨{ m with
        bySpatialCell := index
        liveById := update m.liveById id (some entry') }, ?_,
      .of_chunk_eq rfl hmoves.ownership hsame rfl rfl ⟨rfl, rfl, rfl⟩, ?_⟩
    · rw [if_neg fun hboth => hcells hboth.2, haccessible, hticking]
      simp only [ne_eq, not_true_eq_false, if_false]
      subst hid
      subst hentry'
      refine Returns.bind_ok rfl (Returns.bind_ok hinsert ?_)
      unfold moveUpdate
      rw [haccessible, hticking]
      cases m.isAccessible entry with
      | true =>
        cases (effectiveVisibility entry (m.visibilityOf entry.chunk)).isTicking with
        | true => rfl
        | false => rfl
      | false =>
        cases (effectiveVisibility entry (m.visibilityOf entry.chunk)).isTicking with
        | true => rfl
        | false => rfl
    · exact h.replaceEntry hlive entry' hmoves.entity hmoves.uuid (by rw [hentry']; rfl) rfl rfl
        (h.sectionPos.congr fun a key =>
          (liveWith_replaced_same hlive (by rw [hmoves.sectionPos])).symm)
        (h.chunk.congr fun a chunk => (liveWith_replaced_same hlive (by rw [hsame])).symm)
        hindex hsorted (horder ▸ h.order_lt id entry hlive) le_rfl
        fun a e hne ha => horder ▸ h.order_ne hlive hne ha

theorem moveEntry_across (h : m.Indexed fromAabb) (hlive : m.liveById id = some entry)
    (hne : entry.sectionPos ≠ newSection) :
    Returns (fun (update, m') => update = moveUpdate m id newSection entry ∧
        ∃ entry', entry.MovesTo newSection entry' ∧ m.Moves m' id entry entry' ∧
          m'.Indexed fromAabb)
      (m.moveEntry fromAabb view id newSection entry) := by
  have hid : entry.entity.id = id := h.id id entry hlive
  obtain ⟨sections, hsections, hlookup⟩ := removeFromSection_eq m entry.sectionPos id
  unfold ManagerState.moveEntry
  dsimp only
  rw [if_neg fun hboth => hne hboth.1]
  simp only [ne_eq, hne, not_false_eq_true, if_true]
  rw [hsections]
  unfold takeSectionOrder removeFromChunk
  dsimp only
  by_cases horder : m.nextSectionOrder < 2 ^ 64 - 1
  case neg =>
    rw [if_neg horder]
    rfl
  rw [if_pos horder]
  obtain ⟨entry', hentry'⟩ : ∃ entry', entry' =
      movedEntry fromAabb view newSection m.nextSectionOrder entry := ⟨_, rfl⟩
  have hmoves : entry.MovesTo newSection entry' := hentry' ▸ movesTo_movedEntry
  have hnext : entry'.sectionOrder = m.nextSectionOrder := by
    rw [hentry']
    rfl
  have hinj : ∀ a e, a ≠ id → m.liveById a = some e → e.sectionOrder ≠ entry'.sectionOrder :=
    fun a e _ ha => hnext ▸ (h.order_lt a e ha).ne
  obtain ⟨index, hinsert, hindex, hsorted⟩ := h.replaceCells hlive entry' { m with
      bySection := sections
      byChunk := removeFromBucket m.byChunk entry.chunk id
      nextSectionOrder := m.nextSectionOrder + 1 } rfl rfl
    (by rw [hentry']; exact (fromAabb _).nodup_cells)
    fun a e hne ha => queryOrder_ne (hinj a e hne ha)
  obtain ⟨hsection, hchunk⟩ := h.relocate hlive hmoves hlookup (lookup_insertIntoSection
    { m with bySection := sections } newSection id)
  subst hid hentry'
  refine Returns.of_ok rfl (Returns.of_ok hinsert ?_)
  refine ⟨rfl, _, hmoves, ⟨rfl, rfl, rfl, rfl, rfl, rfl⟩, ?_⟩
  exact h.replaceEntry hlive _ hmoves.entity hmoves.uuid rfl rfl rfl hsection hchunk hindex hsorted
    (Nat.lt_succ_self _) (Nat.le_succ _) hinj

theorem moveEntry (h : m.Indexed fromAabb) (hlive : m.liveById id = some entry)
    (hchunk : entry.chunk = entry.sectionPos.chunk) (newSection : SectionPos) :
    Returns (fun (update, m') => update = moveUpdate m id newSection entry ∧
        ∃ entry', entry.MovesTo newSection entry' ∧ m.Moves m' id entry entry' ∧
          m'.Indexed fromAabb)
      (m.moveEntry fromAabb view id newSection entry) := by
  by_cases hsection : entry.sectionPos = newSection
  · subst hsection
    obtain ⟨m', heq, hmoves, hindexed⟩ := h.moveEntry_within view hlive hchunk
    rw [heq]
    exact ⟨rfl, _, movesTo_movedEntry, hmoves, hindexed⟩
  · exact h.moveEntry_across hlive hsection

end Indexed

/-- Entries keep their places among the entities when the entry of one of them is replaced. -/
theorem Apart.replace {live : EntityId → Option (EntityEntry Box)}
    {entries : List (EntityEntry Box)}
    (h : Apart live entries) (hlive : live id = some entry) (huuid : entry'.uuid = entry.uuid) :
    Apart (update live id (some entry')) entries := by
  refine ⟨h.ids, h.uuids, fun e he => ?_, fun e he a ha => ?_⟩
  · have hne : e.entity.id ≠ id := by
      intro heq
      have hnone := h.live_id e he
      rw [heq, hlive] at hnone
      cases hnone
    rw [Function.update_of_ne hne]
    exact h.live_id e he
  · rw [liveWith_replaced_same hlive (by rw [huuid])] at ha
    exact h.live_uuid e he a ha

theorem Moves.reports (h : m.Moves m' id entry entry') (hentity : entry'.entity = entry.entity)
    (hid : entry.entity.id = id) (haccessible : Enumerates m.accessibleOrder
      (m.AccessibleBy fun _ => m.visibilityOf)) (hlive : m.liveById id = some entry) :
    Reports m m' (if !m.isAccessible entry && m.isAccessible entry' then [entry.entity] else [])
      (if m.isAccessible entry && !m.isAccessible entry' then [entry.entity] else []) := by
  have hmem : entry.entity.id ∈ m.accessibleOrder ↔ m.isAccessible entry = true := by
    rw [hid, haccessible.mem, AccessibleBy, liveWith_of_some hlive, isAccessible, isAccessibleAt]
    simp
  have htracked := Transitions.retarget entry.entity (m.isAccessible entry)
    (m.isAccessible entry') haccessible.nodup hmem
  rw [hid, ← h.accessible] at htracked
  refine ⟨htracked, fun e he => ?_⟩
  split at he
  · obtain rfl := mem_singleton.1 he
    rw [hid, h.live]
    exact ⟨entry', Function.update_self .., hentity⟩
  · cases he

theorem Exact.moveEntry (h : m.Exact fromAabb known) (hlive : m.liveById id = some entry)
    (hnew : newSection.chunk.InPackedRange) :
    Returns (fun (update, m') => m'.Exact fromAabb known ∧
        Reports m m' (if update.becameAccessible then [entry.entity] else [])
          (if update.becameInaccessible then [entry.entity] else []) ∧
        ∀ e o, m.Holds [] e o → m'.Holds [] e o)
      (m.moveEntry fromAabb view id newSection entry) := by
  have hlawful := h.lawful id entry hlive
  have hid : entry.entity.id = id := h.indexed.id id entry hlive
  refine (h.indexed.moveEntry hlive hlawful.chunk newSection).mono ?_
  rintro ⟨update, m'⟩ ⟨hupdate, entry', hmovesTo, hmoves, hindexed⟩
  dsimp only at hupdate hmoves hindexed ⊢
  have hnewAccessible : m.isAccessible entry' =
      m.isAccessibleAt entry.ownership newSection.chunk := by
    rw [isAccessible, hmovesTo.ownership, hmovesTo.chunk]
  have hvisibility : m'.visibilityOf = m.visibilityOf := hmoves.chunks.visibilityOf
  constructor
  · unfold ManagerState.Exact
    rw [hvisibility]
    refine ⟨hindexed, ?_, ?_, ?_, ?_, ?_⟩
    · have haccessible : m.AccessibleBy (fun _ => m.visibilityOf) id ↔
          m.isAccessible entry = true := by
        rw [AccessibleBy, liveWith_of_some hlive, isAccessible, isAccessibleAt]
        simp
      rw [hmoves.accessible]
      refine (OrderedEntityIds.enumerates_retarget h.accessible haccessible).congr fun a => ?_
      unfold AccessibleBy
      rw [hmoves.live, liveWith_update_some, isAccessible, isAccessibleAt]
      simp
    · have hticking : ∀ entity, m.TickingBy (fun _ => m.visibilityOf) entry.entity.id entity ∧
          ¬ False ↔ (effectiveVisibility entry (m.visibilityOf entry.chunk)).isTicking = true ∧
            entity = entry.entity := by
        intro entity
        rw [and_iff_left not_false, hid, TickingBy, liveWith_of_some hlive, and_comm,
          @eq_comm _ entity]
      have hretarget := h.ticking.retarget
        (effectiveVisibility entry (m.visibilityOf entry.chunk)).isTicking
        (effectiveVisibility entry (m.visibilityOf entry'.chunk)).isTicking hticking
      rw [hid] at hretarget
      rw [hmoves.ticks]
      refine hretarget.congr fun a entity => ?_
      unfold TickingBy
      rw [hmoves.live, liveWith_update_some, and_iff_left not_false, and_iff_left not_false,
        hmovesTo.entity, and_comm (a := entry.entity = entity), @eq_comm _ entry.entity,
        effectiveVisibility, effectiveVisibility, hmovesTo.entity, hmovesTo.ownership]
    · intro a e ha
      rw [hmoves.live] at ha
      rcases update_some_cases ha with ⟨rfl, rfl⟩ | ⟨-, ha⟩
      · exact hlawful.movesTo hmovesTo hnew
      · exact h.lawful a e ha
    · rw [hmoves.chunks.waiting]
      exact h.waiting_lawful
    · rw [hmoves.chunks.waiting, hmoves.live]
      exact Apart.replace h.apart hlive hmovesTo.uuid
  · have hreports := hmoves.reports hmovesTo.entity hid h.accessible hlive
    rw [hnewAccessible] at hreports
    rw [hupdate]
    refine ⟨hreports, fun e o he => he.of_live hmoves.chunks.waiting fun hheld => ?_⟩
    rwa [hmoves.live, liveWith_replaced_same hlive]
    rw [EntityEntry.Of, EntityEntry.Of, hmovesTo.entity, hmovesTo.ownership]

variable (view) in
theorem Exact.commitBoundingBoxChange (h : m.Exact fromAabb known) (id : EntityId) :
    ∃ m', m.commitBoundingBoxChange fromAabb view id = .ok m' ∧ m'.Exact fromAabb known ∧
      m'.accessibleOrder = m.accessibleOrder ∧ ∀ e o, m.Holds [] e o → m'.Holds [] e o := by
  obtain ⟨m', heq, hindexed, hchunks, haccessible, hticks, hlive⟩ :=
    h.indexed.commitBoundingBoxChange view id
  refine ⟨m', heq, ?_, haccessible, fun e o he => he.of_live hchunks.waiting fun hheld => ?_⟩
  swap
  · rcases hlive with hlive | ⟨entry, entry', hentry, hlive, hsame⟩
    · rwa [hlive]
    · rwa [hlive, liveWith_replaced_same hentry hsame.of_iff]
  unfold ManagerState.Exact
  rw [hchunks.visibilityOf]
  rcases hlive with hlive | ⟨entry, entry', hentry, hlive, hsame⟩
  · refine ⟨hindexed, ?_, ?_, ?_, ?_, ?_⟩
    · rw [haccessible]
      refine h.accessible.congr fun a => ?_
      rw [AccessibleBy, AccessibleBy, hlive]
    · rw [hticks]
      refine h.ticking.congr fun a entity => ?_
      rw [TickingBy, TickingBy, hlive]
    · rw [hlive]
      exact h.lawful
    · rw [hchunks.waiting]
      exact h.waiting_lawful
    · rw [hchunks.waiting, hlive]
      exact h.apart
  · refine ⟨hindexed, ?_, ?_, ?_, ?_, ?_⟩
    · rw [haccessible]
      refine h.accessible.congr fun a => ?_
      unfold AccessibleBy
      rw [hlive, liveWith_replaced_same hentry (by rw [hsame.ownership, hsame.chunk])]
    · rw [hticks]
      refine h.ticking.congr fun a entity => and_congr ?_ Iff.rfl
      unfold TickingBy
      rw [hlive, liveWith_replaced_same hentry]
      rw [hsame.entity, effectiveVisibility, effectiveVisibility, hsame.entity, hsame.ownership,
        hsame.chunk]
    · intro a e ha
      rw [hlive] at ha
      rcases update_some_cases ha with ⟨rfl, rfl⟩ | ⟨-, ha⟩
      · exact (h.lawful a entry hentry).same hsame
      · exact h.lawful a e ha
    · rw [hchunks.waiting]
      exact h.waiting_lawful
    · rw [hchunks.waiting, hlive]
      exact Apart.replace h.apart hentry hsame.uuid

theorem exists_walkToRootVehicle (hacyclic : Acyclic view.vehicle) {fuel : ℕ} (entity : EntityId)
    {visited : List EntityId} (passenger vehicle : EntityId) (hnodup : visited.Nodup)
    (habove : ∀ a ∈ visited, Relation.TransGen (Linked view.vehicle) a vehicle)
    (hfuel : Fintype.card EntityId < fuel + visited.length) :
    ∃ answer, m.walkToRootVehicle view entity fuel visited passenger vehicle = .ok answer := by
  induction fuel generalizing visited passenger vehicle with
  | zero => exact absurd hnodup.length_le_card (by omega)
  | succ fuel ih =>
    have hnot : vehicle ∉ visited := fun hmem => hacyclic vehicle (habove vehicle hmem)
    unfold walkToRootVehicle
    rw [if_neg hnot]
    split
    · exact ⟨false, rfl⟩
    · split
      · exact ⟨false, rfl⟩
      · split
        · rename_i next hnext
          refine ih vehicle next (nodup_cons.2 ⟨hnot, hnodup⟩) ?_ ?_
          · intro a ha
            rcases mem_cons.1 ha with rfl | ha
            · exact .single hnext
            · exact (habove a ha).tail hnext
          · rw [length_cons]
            omega
        · split
          · exact ⟨true, rfl⟩
          · exact ⟨_, rfl⟩

theorem exists_canMoveManagerOwnedToChunk (hacyclic : Acyclic view.vehicle) (m : ManagerState Box)
    (entry : EntityEntry Box) (newChunk : ChunkPos) :
    ∃ allowed, m.canMoveManagerOwnedToChunk view entry newChunk = .ok allowed := by
  unfold canMoveManagerOwnedToChunk
  split
  · exact ⟨true, rfl⟩
  · split
    · unfold hasLiveLoadedRootVehicle
      split
      · exact ⟨false, rfl⟩
      · rename_i vehicle hvehicle
        refine exists_walkToRootVehicle hacyclic entry.entity.id entry.entity.id vehicle
          (nodup_singleton _) ?_ (Nat.lt_succ_of_lt EntityWorld.card_lt_idFuel)
        intro a ha
        obtain rfl := mem_singleton.1 ha
        exact .single hvehicle
    · exact ⟨false, rfl⟩

/-- A move that is committed keeps the indexes exact, and one that is refused changes nothing. -/
def Commits (fromAabb : Box → EntitySpatialCellBounds) (known : EntityId → Prop)
    (m : ManagerState Box) (id : EntityId)
    (state : Except EntityMoveError EntityMoveUpdate × ManagerState Box) : Prop :=
  match state.1 with
  | .error _ => state.2 = m
  | .ok update =>
    state.2.Exact fromAabb known ∧ (∃ entry, m.liveById id = some entry ∧
      Reports m state.2 (if update.becameAccessible then [entry.entity] else [])
        (if update.becameInaccessible then [entry.entity] else [])) ∧
      ∀ e o, m.Holds [] e o → state.2.Holds [] e o

theorem Exact.commitMove (h : m.Exact fromAabb known) (hacyclic : Acyclic view.vehicle)
    (id : EntityId) (hnew : newSection.chunk.InPackedRange) :
    Returns (Commits fromAabb known m id) (m.commitMove fromAabb view id newSection) := by
  unfold ManagerState.commitMove
  split
  · exact rfl
  · rename_i current hlive
    have hmove : ∀ allowed : Bool, Returns (Commits fromAabb known m id) (if allowed = true then do
          let (update, m') ← m.moveEntry fromAabb view id newSection current
          return (.ok update, m')
        else return (.error (.unloadedDestination id newSection.chunk), m)) := by
      intro allowed
      cases allowed with
      | false => exact rfl
      | true =>
        refine (h.moveEntry hlive hnew).bind ?_
        rintro ⟨update, m'⟩ ⟨hexact, hreports, hholds⟩
        exact ⟨hexact, ⟨current, hlive, hreports⟩, hholds⟩
    dsimp only
    split
    · obtain ⟨allowed, hallowed⟩ :=
        exists_canMoveManagerOwnedToChunk hacyclic m current newSection.chunk
      exact Returns.of_ok hallowed (hmove allowed)
    · exact Returns.of_ok rfl (hmove true)

end ManagerState

end Steel
