import Steel.Entity.EntityMoves

/-! # Unloading chunks

The entities of a chunk that unloads are retained with all that ride on them, in whatever chunks
those are.
-/

namespace Steel

open ManagerState List Function

variable {Box : Type} {fromAabb : Box → EntitySpatialCellBounds} {view : EntityView Box}
  {m m' : ManagerState Box} {known : EntityId → Prop} {id : EntityId} {pos : ChunkPos}
  {entry entry' : EntityEntry Box} {e : SharedEntity} {o : EntityOwnership}

namespace ManagerState

theorem trackingStarted_changeVisibility_hidden (previous : EntityVisibility)
    (state : EntityLifecycleChanges × ManagerState Box) (id : EntityId) :
    (changeVisibility previous .hidden state id).1.trackingStarted = state.1.trackingStarted := by
  obtain ⟨changes, m⟩ := state
  unfold changeVisibility
  dsimp only
  split
  · rfl
  · rename_i entry hlive
    split
    · rfl
    · rename_i hchanges
      have hhidden : effectiveVisibility entry .hidden = .hidden := by
        rw [not_or, not_not] at hchanges
        unfold effectiveVisibility at hchanges ⊢
        split
        · rename_i halways
          rw [if_pos halways, if_pos halways] at hchanges
          exact absurd rfl hchanges.2
        · rw [hchanges.1]
          rfl
      rw [hhidden]
      cases effectiveVisibility entry previous with
      | hidden => rfl
      | tracked => rfl
      | ticking => rfl

theorem trackingStarted_applyChunkVisibilityChange_hidden (m : ManagerState Box) (chunk : ChunkPos)
    (previous : EntityVisibility) :
    (m.applyChunkVisibilityChange chunk previous .hidden).1.trackingStarted = [] := by
  unfold ManagerState.applyChunkVisibilityChange
  generalize m.entityIdsInChunkOrder chunk = ids
  suffices ∀ state : EntityLifecycleChanges × ManagerState Box,
      (ids.foldl (changeVisibility previous .hidden) state).1.trackingStarted =
        state.1.trackingStarted from this (.none, m)
  induction ids with
  | nil => exact fun state => rfl
  | cons id ids ih =>
    intro state
    rw [foldl_cons, ih, trackingStarted_changeVisibility_hidden]

theorem removeLiveEntry_some (h : m.removeLiveEntry id = some (entry, m')) :
    m.liveById id = some entry := by
  unfold ManagerState.removeLiveEntry at h
  split at h
  · cases h
  · rename_i entry' hlive
    have hentry : entry' = entry := congrArg Prod.fst (Option.some.inj h)
    rw [hlive, hentry]

/-- What an unload collects: the retained entries are in transit, and the accessible ids are those
of before without those that stopped. -/
structure Retains (fromAabb : Box → EntitySpatialCellBounds) (known : EntityId → Prop)
    (m : ManagerState Box) (before : List EntityId) (r : Retention Box) : Prop where
  keeps : r.state.Keeps fromAabb known r.retained (fun _ => False) fun _ => m.visibilityOf
  chunks : m.SameChunks r.state
  holds : ∀ e o, m.Holds [] e o → r.state.Holds r.retained e o
  stoppedIds : ∀ id, id ∈ r.trackingStoppedIds ↔ id ∈ r.trackingStopped.map SharedEntity.id
  accessible : ∀ id, id ∈ r.state.accessibleOrder ↔
    id ∈ before ∧ id ∉ r.trackingStopped.map SharedEntity.id

namespace Retains

variable {before : List EntityId} {r : Retention Box}

theorem state_pushUniqueEntity : (r.pushUniqueEntity e).state = r.state := by
  unfold Retention.pushUniqueEntity
  split
  · rfl
  · rfl

theorem visited_pushUniqueEntity : (r.pushUniqueEntity e).visited = r.visited := by
  unfold Retention.pushUniqueEntity
  split
  · rfl
  · rfl

theorem retained_pushUniqueEntity : (r.pushUniqueEntity e).retained = r.retained := by
  unfold Retention.pushUniqueEntity
  split
  · rfl
  · rfl

theorem mem_pushUniqueEntity
    (h : ∀ id, id ∈ r.trackingStoppedIds ↔ id ∈ r.trackingStopped.map SharedEntity.id)
    (e : SharedEntity) (id : EntityId) :
    (id ∈ (r.pushUniqueEntity e).trackingStoppedIds ↔
        id ∈ (r.pushUniqueEntity e).trackingStopped.map SharedEntity.id) ∧
      (id ∈ (r.pushUniqueEntity e).trackingStopped.map SharedEntity.id ↔
        id ∈ r.trackingStopped.map SharedEntity.id ∨ id = e.id) := by
  unfold Retention.pushUniqueEntity
  split
  · rename_i hmem
    refine ⟨h id, (or_iff_left_of_imp ?_).symm⟩
    rintro rfl
    exact (h _).1 hmem
  · constructor
    · rw [Finset.mem_insert, h]
      simp [or_comm]
    · simp

section

variable (h : Retains fromAabb known m before r)

include h

theorem pushUniqueEntity (he : e.id ∉ r.state.accessibleOrder) :
    Retains fromAabb known m before (r.pushUniqueEntity e) := by
  have hmem := mem_pushUniqueEntity h.stoppedIds e
  refine ⟨?_, ?_, ?_, fun id => (hmem id).1, fun id => ?_⟩
  · rw [state_pushUniqueEntity, retained_pushUniqueEntity]
    exact h.keeps
  · rw [state_pushUniqueEntity]
    exact h.chunks
  · rw [state_pushUniqueEntity, retained_pushUniqueEntity]
    exact h.holds
  · rw [state_pushUniqueEntity, h.accessible, (hmem id).2, not_or, ← and_assoc]
    refine iff_self_and.2 ?_
    rintro hid rfl
    exact he ((h.accessible _).2 hid)

theorem visit (visited : Finset EntityId) :
    Retains fromAabb known m before { r with visited := visited } :=
  ⟨h.keeps, h.chunks, h.holds, h.stoppedIds, h.accessible⟩

theorem retainEntry (hlive : r.state.liveById id = some entry)
    (hremove : r.state.removeLiveEntry id = some (entry, m')) :
    let r' := { r with state := m' }.pushUniqueEntity entry.entity
    Retains fromAabb known m before { r' with
      retainedEntities := r'.retainedEntities ++ [entry.entity]
      retained := r'.retained ++ [entry] } := by
  obtain ⟨m'', hremove', hremoves, hkeeps⟩ := h.keeps.removeLiveEntry hlive
  obtain rfl : m'' = m' := by
    rw [hremove] at hremove'
    exact (congrArg Prod.snd (Option.some.inj hremove')).symm
  have hid : entry.entity.id = id := h.keeps.indexed.id id entry hlive
  dsimp only
  rw [retained_pushUniqueEntity]
  have hmem := mem_pushUniqueEntity (r := { r with state := m'' }) h.stoppedIds entry.entity
  have hperm : (r.retained ++ [entry]).Perm (entry :: r.retained) :=
    perm_append_singleton entry r.retained
  refine ⟨?_, ?_, ?_, fun id => (hmem id).1, fun a => ?_⟩
  · dsimp only
    rw [state_pushUniqueEntity]
    exact hkeeps.perm hperm
  · dsimp only
    rw [state_pushUniqueEntity]
    exact ⟨hremoves.chunks.chunkVisibility.trans h.chunks.chunkVisibility,
      hremoves.chunks.unloadingByChunk.trans h.chunks.unloadingByChunk,
      hremoves.chunks.savePendingByChunk.trans h.chunks.savePendingByChunk⟩
  · intro e o he
    dsimp only
    rw [state_pushUniqueEntity]
    rcases hremoves.holds hlive (h.holds e o he) with hheld | ⟨entry', hentry', heq⟩
    · exact .inl hheld
    · exact .inr ⟨entry', ((hperm.append_right _).mem_iff).2 hentry', heq⟩
  · dsimp only
    rw [state_pushUniqueEntity, (hmem a).2, hremoves.accessible,
      h.keeps.accessible.nodup.mem_erase_iff,
      h.accessible, hid]
    tauto

theorem putBack (hlive : r.state.liveById id = some entry)
    (hremove : r.state.removeLiveEntry id = some (entry, m')) (hown : entry.ownership = .external) :
    Returns (fun m'' =>
        Retains fromAabb known m before
          (match (m''.liveById entry.entity.id).bind fun entry =>
              if (effectiveVisibility entry (m''.visibilityOf entry.chunk)).isTicking then
                some entry.entity
              else none with
          | none => { r with state := m'' }
          | some entity =>
            { r with state := { m'' with tickList := (m''.tickList.add entity).2 } }))
      (m'.insertLiveEntry fromAabb view entry) := by
  obtain ⟨m₁, hremove', hremoves, hkeeps⟩ := h.keeps.removeLiveEntry hlive
  obtain rfl : m₁ = m' := by
    rw [hremove] at hremove'
    exact (congrArg Prod.snd (Option.some.inj hremove')).symm
  have hid : entry.entity.id = id := h.keeps.indexed.id id entry hlive
  have hchunks : m.SameChunks m₁ :=
    ⟨hremoves.chunks.chunkVisibility.trans h.chunks.chunkVisibility,
      hremoves.chunks.unloadingByChunk.trans h.chunks.unloadingByChunk,
      hremoves.chunks.savePendingByChunk.trans h.chunks.savePendingByChunk⟩
  have hnone : m₁.liveById entry.entity.id = none :=
    hkeeps.apart.live_id entry mem_cons_self
  refine (hkeeps.insertLiveEntry (congrFun hchunks.visibilityOf entry.chunk).symm).mono ?_
  rintro m'' ⟨entry', hsame, hinserts, hkeeps'⟩
  have hchunks' : m.SameChunks m'' :=
    ⟨hinserts.chunks.chunkVisibility.trans hchunks.chunkVisibility,
      hinserts.chunks.unloadingByChunk.trans hchunks.unloadingByChunk,
      hinserts.chunks.savePendingByChunk.trans hchunks.savePendingByChunk⟩
  have hlive'' : m''.liveById entry.entity.id = some entry' := by
    rw [hinserts.live, hsame.entity, update_self]
  have hholds : ∀ e o, m.Holds [] e o → m''.Holds r.retained e o := fun e o he =>
    hinserts.holds hsame hnone (hremoves.holds hlive (h.holds e o he))
  have haccessible : ∀ a, a ∈ m''.accessibleOrder ↔ a ∈ r.state.accessibleOrder := by
    intro a
    have hyes : m₁.isAccessible entry' = true := by
      rw [isAccessible, isAccessibleAt, hsame.ownership, hown]
      rfl
    have hmem : id ∈ r.state.accessibleOrder :=
      (h.keeps.accessible.mem id).2 ⟨entry, hlive, .inl hown⟩
    have hnot : id ∉ r.state.accessibleOrder.erase id :=
      h.keeps.accessible.nodup.not_mem_erase
    rw [hinserts.accessible, if_pos hyes, hremoves.accessible, hsame.entity, hid,
      OrderedEntityIds.insert_of_not_mem hnot, mem_append, mem_singleton,
      h.keeps.accessible.nodup.mem_erase_iff]
    by_cases ha : a = id
    · simp [ha, hmem]
    · simp [ha]
  have hvisible : (fun _ : EntityId => m.visibilityOf) entry.entity.id entry'.chunk =
      m''.visibilityOf entry'.chunk := (congrFun hchunks'.visibilityOf _).symm
  rw [hlive'', Option.bind_some]
  split
  · rename_i hnot
    split at hnot
    · cases hnot
    · rename_i hticking
      rw [← hvisible] at hticking
      refine ⟨(hkeeps'.skipTicking hlive'' hticking).congr (fun id => by simp) fun _ _ _ => rfl,
        hchunks', hholds, h.stoppedIds, fun a => (haccessible a).trans (h.accessible a)⟩
  · rename_i entity hsome
    split at hsome
    · rename_i hticking
      obtain rfl := Option.some.inj hsome
      rw [← hvisible] at hticking
      refine ⟨(hkeeps'.startTicking hlive'' hticking).congr (fun id => by simp) fun _ _ _ => rfl,
        ⟨hchunks'.chunkVisibility, hchunks'.unloadingByChunk, hchunks'.savePendingByChunk⟩, hholds,
        h.stoppedIds, fun a => (haccessible a).trans (h.accessible a)⟩
    · cases hsome

/-- The walk over the riders of an entity ends, as every id is visited once. -/
theorem retainUnloadingEntityTree {fuel : ℕ}
    (hfuel : Fintype.card EntityId < fuel + r.visited.card) (id : EntityId) :
    Returns (fun r' => Retains fromAabb known m before r' ∧ r.visited.card ≤ r'.visited.card)
      (ManagerState.retainUnloadingEntityTree fromAabb view fuel r id) := by
  induction fuel generalizing r id with
  | zero => exact absurd r.visited.card_le_univ (by omega)
  | succ fuel ih =>
    unfold ManagerState.retainUnloadingEntityTree
    split
    · exact ⟨h, le_rfl⟩
    · rename_i hnew
      have hcard : (insert id r.visited).card = r.visited.card + 1 :=
        Finset.card_insert_of_notMem hnew
      dsimp only
      split
      · exact ⟨h.visit _, hcard ▸ Nat.le_succ _⟩
      · rename_i entry m' hremove
        have hlive := removeLiveEntry_some hremove
        split
        · rename_i hown
          have hown : entry.ownership = .external := by
            cases hentry : entry.ownership with
            | external => rfl
            | managerOwned => exact absurd hentry hown
          refine ((h.visit (insert id r.visited)).putBack hlive hremove hown).bind
            fun m'' hput => ?_
          split
          · rename_i hnone
            rw [hnone] at hput
            exact ⟨hput, hcard ▸ Nat.le_succ _⟩
          · rename_i entity hsome
            rw [hsome] at hput
            exact ⟨hput, hcard ▸ Nat.le_succ _⟩
        · have hretain := (h.visit (insert id r.visited)).retainEntry hlive hremove
          refine (Returns.foldlM (Q := fun r' => Retains fromAabb known m before r' ∧
            r.visited.card + 1 ≤ r'.visited.card) ⟨hretain, ?_⟩ ?_).mono ?_
          · dsimp only
            rw [visited_pushUniqueEntity, hcard]
          · rintro r' ⟨hr', hvisited⟩ passenger -
            refine (ih hr' (by omega) passenger).mono ?_
            exact fun r'' hr'' => ⟨hr''.1, hvisited.trans hr''.2⟩
          · exact fun r' hr' => ⟨hr'.1, Nat.le_of_succ_le hr'.2⟩

end

variable (view) in
theorem foldl_stopInChunk (h : Retains fromAabb known m before r)
    (hhidden : m.visibilityOf pos = .hidden) {ids : List EntityId}
    (hids : ∀ id ∈ ids, ∀ entry, r.state.liveById id = some entry → entry.chunk = pos)
    (rootIds : List EntityId) :
    Retains fromAabb known m before (ids.foldl (stopInChunk view) (r, rootIds)).1 := by
  induction ids generalizing r rootIds with
  | nil => exact h
  | cons id ids ih =>
    rw [foldl_cons]
    unfold stopInChunk
    dsimp only
    have hrest := fun a ha => hids a (mem_cons_of_mem id ha)
    split
    · exact ih h hrest rootIds
    · rename_i entry hlive
      split
      · exact ih h hrest rootIds
      · rename_i hown
        have hnot : entry.entity.id ∉ r.state.accessibleOrder := by
          intro hmem
          rw [h.keeps.accessible.mem, h.keeps.indexed.id id entry hlive, AccessibleBy,
            liveWith_of_some hlive, hids id mem_cons_self entry hlive, hhidden] at hmem
          rcases hmem with hexternal | hvisible
          · rw [hexternal] at hown
            exact hown (by decide)
          · cases hvisible
        refine ih (h.pushUniqueEntity hnot) ?_ _
        rw [state_pushUniqueEntity]
        exact hrest

end Retains

theorem Keeps.retain {retained : List (EntityEntry Box)} {unticked : EntityId → Prop}
    {visible : EntityId → ChunkPos → EntityVisibility}
    (h : m.Keeps fromAabb known retained unticked visible) (pos : ChunkPos) :
    { m with
      unloadingByChunk := m.unloadingByChunk.insert pos
        ((m.unloadingByChunk.lookup pos).getD [] ++ retained) }.Keeps fromAabb known [] unticked
      visible := by
  refine h.rewait _ m.savePendingByChunk (List.Perm.subperm ?_)
  rw [nil_append, ManagerState.waiting, ← append_assoc]
  exact (contents_append m.unloadingByChunk pos retained).append_right _

theorem Exact.beginChunkUnload (h : m.Exact fromAabb known) (hpos : pos.InPackedRange) :
    Returns (fun (start, m') => m'.Exact fromAabb known ∧
        Reports m m' [] start.trackingStopped ∧ ∀ e o, m.Holds [] e o → m'.Holds [] e o)
      (m.beginChunkUnload fromAabb view pos) := by
  have hnew : (update m.chunkVisibility pos none pos).getD .hidden =
      EntityVisibility.hidden := by
    rw [update_self]
    rfl
  obtain ⟨lifecycle, m₁, happly, hsame, hexact, htracked, -, -⟩ :=
    h.applyChunkVisibilityChange hpos hnew fun chunk hchunk => update_of_ne hchunk ..
  have hstarted : lifecycle.trackingStarted = [] := by
    have hnone := trackingStarted_applyChunkVisibilityChange_hidden
      { m with chunkVisibility := update m.chunkVisibility pos none } pos
      (m.visibilityOf pos)
    rwa [happly] at hnone
  have hhidden : m₁.visibilityOf pos = .hidden := by
    rw [hsame.visibilityOf]
    exact hnew
  have hstart : Retains fromAabb known m₁ m.accessibleOrder
      { state := m₁
        visited := ∅
        retained := []
        retainedEntities := []
        trackingStoppedIds := (lifecycle.trackingStopped.map SharedEntity.id).toFinset
        trackingStopped := lifecycle.trackingStopped } := by
    refine ⟨hexact, ⟨rfl, rfl, rfl⟩, fun e o he => he, fun id => mem_toFinset, fun id => ?_⟩
    have hiff := htracked.iff id
    rw [hstarted] at hiff
    simpa using hiff
  have hholds : ∀ e o, m.Holds [] e o → m₁.Holds [] e o := fun e o he =>
    hsame.holds.2 he
  unfold ManagerState.beginChunkUnload
  dsimp only
  rw [happly]
  dsimp only
  have hstopped := hstart.foldl_stopInChunk view hhidden
    (fun (id : EntityId) (hid : id ∈ m.entityIdsInChunkOrder pos) entry hlive => by
      rw [hsame.live] at hlive
      obtain ⟨entry', hlive', hchunk⟩ :=
        (mem_entityIdsInChunkOrder id h.indexed h.lawful hpos).1 hid
      rwa [Option.some.inj (hlive.symm.trans hlive')]) []
  refine (Returns.foldlM (Q := fun r => Retains fromAabb known m₁ m.accessibleOrder r) hstopped
    fun r hr id _ => (hr.retainUnloadingEntityTree ?_ id).mono fun r' hr' => hr'.1).bind ?_
  · exact Nat.lt_add_right _ EntityWorld.card_lt_idFuel
  · intro r hr
    have hreports : ∀ state : ManagerState Box, state.accessibleOrder = r.state.accessibleOrder →
        Reports m state [] r.trackingStopped := by
      intro state hstate
      refine ⟨⟨fun id => ?_, .nil, nofun⟩, nofun⟩
      rw [hstate, hr.accessible]
      simp
    split
    · rename_i hempty
      have hnil : r.retained = [] := isEmpty_iff.1 hempty
      have hkeeps := hr.keeps
      rw [hnil, ← hr.chunks.visibilityOf] at hkeeps
      refine ⟨hkeeps, hreports _ rfl, fun e o he => ?_⟩
      rw [← hnil]
      exact hr.holds e o (hholds e o he)
    · have hkeeps := hr.keeps
      rw [← hr.chunks.visibilityOf] at hkeeps
      refine ⟨hkeeps.retain pos, hreports _ rfl, fun e o he => ?_⟩
      rcases hr.holds e o (hholds e o he) with hlive | ⟨entry, hentry, heq⟩
      · exact .inl hlive
      · refine .inr ⟨entry, ?_, heq⟩
        rw [nil_append, ManagerState.waiting]
        refine
          (((contents_append r.state.unloadingByChunk pos r.retained).append_right _).mem_iff).2
          ?_
        rw [append_assoc]
        exact hentry

end ManagerState

end Steel
