import Steel.Entity.EntityIndexes

/-! # Live, unloading and save-pending entities

An entity is live, retained for a chunk that unloads, or waits for a save.
-/

namespace Steel

open Function (update_self update update_of_ne)

open ManagerState List SectionPos

variable {Box : Type} {fromAabb : Box → EntitySpatialCellBounds} {view : EntityView Box}
  {m m' : ManagerState Box} {known known' : EntityId → Prop} {id : EntityId}
  {entry entry' : EntityEntry Box}

/-- An entry of a known entity, in a chunk whose sections have packed positions of their own. -/
structure EntityEntry.Lawful (known : EntityId → Prop) (entry : EntityEntry Box) : Prop where
  known : known entry.entity.id
  uuid : entry.uuid = entry.entity.uuid
  chunk : entry.chunk = entry.sectionPos.chunk
  inPackedRange : entry.chunk.InPackedRange
  alwaysTicking : entry.entity.isAlwaysTicking = true → entry.ownership = .external

theorem EntityEntry.Lawful.same (h : entry.Lawful known) (hsame : entry.Same entry') :
    entry'.Lawful known where
  known := hsame.entity ▸ h.known
  uuid := by rw [hsame.uuid, hsame.entity, h.uuid]
  chunk := by rw [hsame.chunk, hsame.sectionPos, h.chunk]
  inPackedRange := hsame.chunk ▸ h.inPackedRange
  alwaysTicking := by
    rw [hsame.entity, hsame.ownership]
    exact h.alwaysTicking

def EntityEntry.Of (e : SharedEntity) (o : EntityOwnership) (entry : EntityEntry Box) : Prop :=
  entry.entity = e ∧ entry.ownership = o

theorem EntityEntry.Same.of_iff (h : entry.Same entry') {e : SharedEntity} {o : EntityOwnership} :
    entry'.Of e o ↔ entry.Of e o := by
  rw [EntityEntry.Of, EntityEntry.Of, h.entity, h.ownership]

/-- The entries are of different entities, none of which is live. -/
structure Apart (live : EntityId → Option (EntityEntry Box)) (entries : List (EntityEntry Box)) :
    Prop where
  ids : (entries.map (·.entity.id)).Nodup
  uuids : (entries.map (·.uuid)).Nodup
  live_id : ∀ entry ∈ entries, live entry.entity.id = none
  live_uuid : ∀ entry ∈ entries, ∀ id, ¬ LiveWith live (entry.uuid = ·.uuid) id

section

variable {live : EntityId → Option (EntityEntry Box)} {entries entries' : List _}
  (h : Apart live entries)

include h

theorem Apart.perm (hperm : entries'.Perm entries) : Apart live entries' :=
  ⟨(hperm.map _).nodup_iff.2 h.ids, (hperm.map _).nodup_iff.2 h.uuids,
    fun e he => h.live_id e (hperm.mem_iff.1 he), fun e he => h.live_uuid e (hperm.mem_iff.1 he)⟩

theorem Apart.sublist (hsub : entries'.Sublist entries) : Apart live entries' :=
  ⟨h.ids.sublist (hsub.map _), h.uuids.sublist (hsub.map _),
    fun e he => h.live_id e (hsub.subset he), fun e he => h.live_uuid e (hsub.subset he)⟩

end

namespace ManagerState

def waiting (m : ManagerState Box) : List (EntityEntry Box) := m.unloading ++ m.savePending

/-- The entity is live, retained, save-pending or in transit. -/
def Holds (transit : List (EntityEntry Box)) (m : ManagerState Box) (e : SharedEntity)
    (o : EntityOwnership) : Prop :=
  LiveWith m.liveById (EntityEntry.Of e o) e.id ∨ ∃ entry ∈ transit ++ m.waiting, entry.Of e o

/-- The live ids that queries find, when chunks look as visible as given. -/
def AccessibleBy (m : ManagerState Box) (visible : EntityId → ChunkPos → EntityVisibility)
    (id : EntityId) : Prop :=
  LiveWith m.liveById
    (fun entry => entry.ownership = .external ∨ (visible id entry.chunk).isAccessible = true) id

def TickingBy (m : ManagerState Box) (visible : EntityId → ChunkPos → EntityVisibility)
    (id : EntityId) (entity : SharedEntity) : Prop :=
  LiveWith m.liveById
    (fun entry => entry.entity = entity ∧
      (effectiveVisibility entry (visible id entry.chunk)).isTicking = true) id

/-- The indexes are exact, but for entries in transit, for live entities that do not tick yet, and
for chunks that look as visible as given. -/
structure Keeps (fromAabb : Box → EntitySpatialCellBounds) (known : EntityId → Prop)
    (transit : List (EntityEntry Box)) (unticked : EntityId → Prop)
    (visible : EntityId → ChunkPos → EntityVisibility) (m : ManagerState Box) : Prop where
  indexed : m.Indexed fromAabb
  accessible : Enumerates m.accessibleOrder (m.AccessibleBy visible)
  ticking : m.tickList.Ticks fun id entity => m.TickingBy visible id entity ∧ ¬ unticked id
  lawful : ∀ id entry, m.liveById id = some entry → entry.Lawful known
  waiting_lawful : ∀ entry ∈ transit ++ m.waiting, entry.Lawful known
  apart : Apart m.liveById (transit ++ m.waiting)

end ManagerState

/-- A list of ids changes by the entities that stop and then those that start. -/
structure Transitions (before after : List EntityId)
    (started stopped : List SharedEntity) : Prop where
  iff : ∀ id, id ∈ after ↔
    (id ∈ before ∧ id ∉ stopped.map SharedEntity.id) ∨ id ∈ started.map SharedEntity.id
  nodup : (started.map SharedEntity.id).Nodup
  fresh : ∀ id ∈ started.map SharedEntity.id, id ∈ before → id ∈ stopped.map SharedEntity.id

namespace Transitions

variable {before between after : List EntityId}
variable {started stopped started' stopped' : List SharedEntity}

theorem refl (ids : List EntityId) : Transitions ids ids [] [] := ⟨by simp, .nil, nofun⟩

theorem trans (h : Transitions before between started stopped)
    (h' : Transitions between after started' stopped')
    (hdisjoint : ∀ id ∈ started.map SharedEntity.id, id ∉ stopped'.map SharedEntity.id) :
    Transitions before after (started ++ started') (stopped ++ stopped') where
  iff id := by
    rw [h'.iff, h.iff, map_append, map_append, mem_append, mem_append]
    tauto
  nodup := by
    rw [map_append, nodup_append]
    refine ⟨h.nodup, h'.nodup, ?_⟩
    rintro id hid id' hid' rfl
    exact hdisjoint id hid (h'.fresh id hid' ((h.iff id).2 (.inr hid)))
  fresh id hid hold := by
    rw [map_append, mem_append] at hid ⊢
    rcases hid with hid | hid
    · exact .inl (h.fresh id hid hold)
    · by_cases hstopped : id ∈ stopped.map SharedEntity.id
      · exact .inl hstopped
      · exact .inr (h'.fresh id hid ((h.iff id).2 (.inl ⟨hold, hstopped⟩)))

theorem retarget (entity : SharedEntity) (old new : Bool) (hnodup : before.Nodup)
    (hid : entity.id ∈ before ↔ old = true) :
    Transitions before (if old && !new then before.erase entity.id
        else if !old && new then OrderedEntityIds.insert before entity.id
        else before)
      (if !old && new then [entity] else []) (if old && !new then [entity] else []) := by
  cases old with
  | true =>
    cases new with
    | true => exact .refl before
    | false => exact ⟨fun id => by simp [hnodup.mem_erase_iff, and_comm], .nil, nofun⟩
  | false =>
    have hnot : entity.id ∉ before := fun hmem => Bool.false_ne_true (hid.1 hmem)
    cases new with
    | true =>
      refine ⟨fun id => by simp [OrderedEntityIds.insert_of_not_mem hnot], nodup_singleton _, ?_⟩
      intro id hmem hold
      obtain rfl := mem_singleton.1 hmem
      exact absurd hold hnot
    | false => exact .refl before

end Transitions

namespace ManagerState

theorem SameChunks.waiting (h : m.SameChunks m') : m'.waiting = m.waiting := by
  unfold ManagerState.waiting unloading savePending
  rw [h.unloadingByChunk, h.savePendingByChunk]

variable {transit : List (EntityEntry Box)} {e : SharedEntity} {o : EntityOwnership}
  {unticked : EntityId → Prop} {visible : EntityId → ChunkPos → EntityVisibility}

theorem Holds.of_live (h : m.Holds transit e o) (hwaiting : m'.waiting = m.waiting)
    (hlive : LiveWith m.liveById (EntityEntry.Of e o) e.id →
      LiveWith m'.liveById (EntityEntry.Of e o) e.id) : m'.Holds transit e o := by
  rcases h with hheld | hheld
  · exact .inl (hlive hheld)
  · rw [← hwaiting] at hheld
    exact .inr hheld

theorem Removes.holds (h : m.Removes m' id) (hlive : m.liveById id = some entry)
    (hholds : m.Holds transit e o) : m'.Holds (entry :: transit) e o := by
  unfold Holds at hholds ⊢
  rw [h.live, h.chunks.waiting, cons_append]
  rcases hholds with hheld | ⟨entry', hentry', heq⟩
  · by_cases he : e.id = id
    · rw [he] at hheld
      exact .inr ⟨entry, mem_cons_self, (liveWith_of_some hlive).1 hheld⟩
    · exact .inl (liveWith_update_none.2 ⟨hheld, he⟩)
  · exact .inr ⟨entry', mem_cons_of_mem _ hentry', heq⟩

theorem Inserts.holds (h : m.Inserts m' entry') (hsame : entry.Same entry')
    (hnone : m.liveById entry.entity.id = none) (hholds : m.Holds (entry :: transit) e o) :
    m'.Holds transit e o := by
  unfold Holds at hholds ⊢
  rw [h.live, h.chunks.waiting, hsame.entity, ← liveWith_inserted hnone]
  rcases hholds with hheld | ⟨entry'', hentry'', hof⟩
  · exact .inl (.inl hheld)
  · rcases mem_cons.1 hentry'' with rfl | hentry''
    · exact .inl (.inr ⟨hof.1 ▸ rfl, hsame.of_iff.2 hof⟩)
    · exact .inr ⟨entry'', hentry'', hof⟩

theorem Indexed.uuid_inj (h : m.Indexed fromAabb) (hlive : m.liveById id = some entry)
    {a : EntityId}
    (ha : LiveWith m.liveById (entry.uuid = ·.uuid) a) : a = id := by
  have hid : m.liveByUuid entry.uuid = some id := (h.uuid _ _).2 ⟨entry, hlive, rfl⟩
  exact Option.some.inj (((h.uuid _ _).2 ha).symm.trans hid)

namespace Keeps

variable {transit transit' : List (EntityEntry Box)} {unticked unticked' : EntityId → Prop}
  {visible visible' : EntityId → ChunkPos → EntityVisibility}

theorem perm (h : m.Keeps fromAabb known transit unticked visible)
    (hperm : transit'.Perm transit) : m.Keeps fromAabb known transit' unticked visible :=
  ⟨h.indexed, h.accessible, h.ticking, h.lawful,
    fun e he => h.waiting_lawful e ((hperm.append_right _).mem_iff.1 he),
    h.apart.perm (hperm.append_right _)⟩

theorem sublist (h : m.Keeps fromAabb known transit unticked visible)
    (hsub : transit'.Sublist transit) : m.Keeps fromAabb known transit' unticked visible :=
  ⟨h.indexed, h.accessible, h.ticking, h.lawful,
    fun e he => h.waiting_lawful e ((hsub.append_right _).subset he),
    h.apart.sublist (hsub.append_right _)⟩

variable (known') in
section

variable (h : m.Keeps fromAabb known transit unticked visible)

include h

theorem mono
    (hknown : ∀ id, known id → known' id) : m.Keeps fromAabb known' transit unticked visible :=
  ⟨h.indexed, h.accessible, h.ticking,
    fun id e he => { h.lawful id e he with known := hknown _ (h.lawful id e he).known },
    fun e he => { h.waiting_lawful e he with known := hknown _ (h.waiting_lawful e he).known },
    h.apart⟩

theorem congr (hunticked : ∀ id, unticked id ↔ unticked' id)
    (hvisible : ∀ id entry, m.liveById id = some entry →
      visible id entry.chunk = visible' id entry.chunk) :
    m.Keeps fromAabb known transit unticked' visible' := by
  refine ⟨h.indexed, h.accessible.congr fun id => ?_, h.ticking.congr fun id entity => ?_, h.lawful,
    h.waiting_lawful, h.apart⟩
  · refine exists_congr fun entry => and_congr_right fun hlive => ?_
    dsimp only
    rw [hvisible id entry hlive]
  · refine and_congr ?_ (not_congr (hunticked id))
    refine exists_congr fun entry => and_congr_right fun hlive => ?_
    dsimp only
    rw [hvisible id entry hlive]

theorem removeLiveEntry (hlive : m.liveById id = some entry) :
    ∃ m', m.removeLiveEntry id = some (entry, m') ∧ m.Removes m' id ∧
      m'.Keeps fromAabb known (entry :: transit) unticked visible := by
  obtain ⟨m', hremove, hremoves, hindexed, -⟩ := h.indexed.removeLiveEntry hlive
  have hid : entry.entity.id = id := h.indexed.id id entry hlive
  refine ⟨m', hremove, hremoves, hindexed, ?_, ?_, ?_, ?_, ?_⟩
  · rw [hremoves.accessible]
    refine (h.accessible.erase id).congr fun a => ?_
    unfold AccessibleBy
    rw [hremoves.live, liveWith_update_none]
  · rw [hremoves.ticks]
    refine (h.ticking.remove id).1.congr fun a entity => ?_
    unfold TickingBy
    rw [hremoves.live, liveWith_update_none, and_right_comm]
  · intro a e ha
    rw [hremoves.live] at ha
    exact h.lawful a e (update_none_cases ha).2
  · intro e he
    rw [hremoves.chunks.waiting, cons_append] at he
    rcases mem_cons.1 he with rfl | he
    · exact h.lawful id e hlive
    · exact h.waiting_lawful e he
  · rw [hremoves.chunks.waiting, cons_append, hremoves.live]
    refine ⟨?_, ?_, ?_, ?_⟩
    · rw [map_cons, nodup_cons]
      refine ⟨fun hmem => ?_, h.apart.ids⟩
      obtain ⟨e, he, heq⟩ := mem_map.1 hmem
      have hnone := h.apart.live_id e he
      rw [heq, hid, hlive] at hnone
      cases hnone
    · rw [map_cons, nodup_cons]
      refine ⟨fun hmem => ?_, h.apart.uuids⟩
      obtain ⟨e, he, heq⟩ := mem_map.1 hmem
      exact h.apart.live_uuid e he id ⟨entry, hlive, heq⟩
    · intro e he
      rcases mem_cons.1 he with rfl | he
      · rw [hid, update_self]
      · have hne : e.entity.id ≠ id := by
          intro heq
          have hnone := h.apart.live_id e he
          rw [heq, hlive] at hnone
          cases hnone
        rw [update_of_ne hne]
        exact h.apart.live_id e he
    · intro e he a ha
      rw [liveWith_update_none] at ha
      rcases mem_cons.1 he with rfl | he
      · exact ha.2 (h.indexed.uuid_inj hlive ha.1)
      · exact h.apart.live_uuid e he a ha.1

end

theorem insertLiveEntry (h : m.Keeps fromAabb known (entry :: transit) unticked visible)
    (hvisible : visible entry.entity.id entry.chunk = m.visibilityOf entry.chunk) :
    Returns (fun m' => ∃ entry', entry.Same entry' ∧ m.Inserts m' entry' ∧
        m'.Keeps fromAabb known transit (fun id => unticked id ∨ id = entry.entity.id) visible)
      (m.insertLiveEntry fromAabb view entry) := by
  have hid : m.liveById entry.entity.id = none := h.apart.live_id entry mem_cons_self
  have huuid : m.liveByUuid entry.uuid = none := by
    rw [Option.eq_none_iff_forall_ne_some]
    intro a ha
    exact h.apart.live_uuid entry mem_cons_self a ((h.indexed.uuid _ _).1 ha)
  refine (h.indexed.insertLiveEntry hid huuid).mono ?_
  rintro m' ⟨entry', hsame, hinserts, hindexed⟩
  have hnone : m.liveById entry'.entity.id = none := hsame.entity ▸ hid
  have haccessible : m.isAccessible entry' = true ↔
      entry'.ownership = .external ∨
        (visible entry'.entity.id entry'.chunk).isAccessible = true := by
    rw [hsame.entity, hsame.chunk, hvisible, ← hsame.chunk]
    simp [isAccessible, isAccessibleAt]
  refine ⟨entry', hsame, hinserts, hindexed, ?_, ?_, ?_, ?_, ?_⟩
  · rw [hinserts.accessible]
    split
    · rename_i hyes
      refine (OrderedEntityIds.enumerates_insert h.accessible).congr fun a => ?_
      unfold AccessibleBy
      rw [hinserts.live, ← liveWith_inserted hnone]
      refine or_congr Iff.rfl (and_iff_left_of_imp ?_).symm
      rintro rfl
      exact haccessible.1 hyes
    · rename_i hno
      refine h.accessible.congr fun a => ?_
      unfold AccessibleBy
      rw [hinserts.live, ← liveWith_inserted hnone]
      refine (or_iff_left ?_).symm
      rintro ⟨rfl, hyes⟩
      exact hno (haccessible.2 hyes)
  · rw [hinserts.ticks]
    refine h.ticking.congr fun a entity => ?_
    unfold TickingBy
    rw [hinserts.live, ← liveWith_inserted hnone, hsame.entity, not_or]
    constructor
    · rintro ⟨hlive, hticked⟩
      exact ⟨.inl hlive, hticked, hlive.ne_of_none hid⟩
    · rintro ⟨hlive | ⟨heq, -⟩, hticked, hne⟩
      · exact ⟨hlive, hticked⟩
      · exact absurd heq hne
  · intro a e ha
    rw [hinserts.live] at ha
    rcases update_some_cases ha with ⟨-, rfl⟩ | ⟨-, ha⟩
    · exact (h.waiting_lawful entry mem_cons_self).same hsame
    · exact h.lawful a e ha
  · rw [hinserts.chunks.waiting]
    exact fun e he => h.waiting_lawful e (mem_cons_of_mem _ he)
  · rw [hinserts.chunks.waiting, hinserts.live, hsame.entity]
    have hrest := h.apart.sublist (sublist_cons_self entry (transit ++ m.waiting))
    have hids := h.apart.ids
    have huuids := h.apart.uuids
    rw [cons_append, map_cons, nodup_cons] at hids huuids
    refine ⟨hrest.ids, hrest.uuids, ?_, ?_⟩
    · intro e he
      rw [update_of_ne]
      · exact hrest.live_id e he
      · intro heq
        exact hids.1 (mem_map.2 ⟨e, he, heq⟩)
    · intro e he a ha
      rcases liveWith_update_some.1 ha with ⟨-, hold⟩ | ⟨-, heq⟩
      · exact hrest.live_uuid e he a hold
      · rw [hsame.uuid] at heq
        exact huuids.1 (mem_map.2 ⟨e, he, heq⟩)

section

variable (h : m.Keeps fromAabb known transit unticked visible)
  (hlive : m.liveById id = some entry)

include h hlive

theorem startTicking
    (hticking : (effectiveVisibility entry (visible id entry.chunk)).isTicking = true) :
    { m with tickList := (m.tickList.add entry.entity).2 }.Keeps fromAabb known transit
      (fun a => unticked a ∧ a ≠ id) visible := by
  have hid : entry.entity.id = id := h.indexed.id id entry hlive
  refine ⟨{ h.indexed with }, h.accessible, ?_, h.lawful, h.waiting_lawful, h.apart⟩
  refine (h.ticking.add entry.entity).1.congr fun a entity => ?_
  rw [hid]
  by_cases ha : a = id
  · subst ha
    have hself : m.TickingBy visible a entity ↔ entry.entity = entity :=
      (liveWith_of_some hlive).trans (and_iff_left hticking)
    simp only [ne_eq, not_true_eq_false, false_and, true_and, false_or, and_false,
      not_false_eq_true,
      and_true]
    exact eq_comm.trans hself.symm
  · simp only [ne_eq, ha, not_false_eq_true, and_true, true_and, false_and, or_false]
    exact Iff.rfl

theorem skipTicking
    (hticking : (effectiveVisibility entry (visible id entry.chunk)).isTicking ≠ true) :
    m.Keeps fromAabb known transit (fun a => unticked a ∧ a ≠ id) visible := by
  refine ⟨h.indexed, h.accessible, ?_, h.lawful, h.waiting_lawful, h.apart⟩
  refine h.ticking.congr fun a entity => and_congr_right fun hT => not_congr ?_
  refine (and_iff_left ?_).symm
  rintro rfl
  exact hticking ((liveWith_of_some hlive).1 hT).2

end

end Keeps

theorem Keeps.rewait {transit' : List (EntityEntry Box)}
    (unloading savePending : HashMap ChunkPos (List (EntityEntry Box)))
    (h : m.Keeps fromAabb known transit unticked visible)
    (hfrom : List.Subperm (transit' ++ (contents unloading ++ contents savePending))
      (transit ++ m.waiting)) :
    { m with unloadingByChunk := unloading, savePendingByChunk := savePending }.Keeps fromAabb known
      transit' unticked visible := by
  obtain ⟨entries, hperm, hsub⟩ := hfrom
  refine ⟨{ h.indexed with }, h.accessible, h.ticking, h.lawful, ?_, ?_⟩
  · exact fun e he => h.waiting_lawful e (hsub.subset (hperm.mem_iff.2 he))
  · exact (h.apart.sublist hsub).perm hperm.symm

variable (id) in
theorem mem_entityIdsInChunkOrder (h : m.Indexed fromAabb)
    (hlawful : ∀ id entry, m.liveById id = some entry → entry.Lawful known) {chunk : ChunkPos}
    (hchunk : chunk.InPackedRange) :
    id ∈ m.entityIdsInChunkOrder chunk ↔ LiveWith m.liveById (·.chunk = chunk) id := by
  unfold entityIdsInChunkOrder
  simp only [mem_flatMap, (perm_insertionSort _ _).mem_iff, mem_filter,
    decide_eq_true_iff, h.sectionPos.mem_getD]
  have hbetween : ∀ e, m.liveById id = some e →
      (pack ⟨chunk.x, 0, chunk.z⟩ ≤ e.sectionPos.pack ∧
        e.sectionPos.pack ≤ pack ⟨chunk.x, -1, chunk.z⟩ ↔ e.chunk = chunk) := by
    intro e he
    have hlaw := hlawful id e he
    rw [hlaw.chunk]
    exact pack_between_iff (hlaw.chunk ▸ hlaw.inPackedRange) hchunk
  constructor
  · rintro ⟨key, ⟨-, hkey⟩, e, he, rfl⟩
    exact ⟨e, he, (hbetween e he).1 hkey⟩
  · rintro ⟨e, he, hechunk⟩
    refine ⟨e.sectionPos.pack, ⟨?_, (hbetween e he).2 hechunk⟩, e, he, rfl⟩
    obtain ⟨ids, hids, -⟩ := (h.sectionPos.mem id e.sectionPos.pack).2 ⟨e, he, rfl⟩
    exact AList.lookup_isSome.1 (Option.isSome_of_eq_some hids)

theorem nodup_entityIdsInChunkOrder (h : m.Indexed fromAabb) (chunk : ChunkPos) :
    (m.entityIdsInChunkOrder chunk).Nodup := by
  refine nodup_flatMap.2 ⟨fun key _ => h.sectionPos.nodup_getD key, ?_⟩
  have hkeys := ((perm_insertionSort (· ≤ ·) _).nodup_iff).2 (m.bySection.keys_nodup.filter
    fun key => decide (pack ⟨chunk.x, 0, chunk.z⟩ ≤ key ∧
      key ≤ pack ⟨chunk.x, -1, chunk.z⟩))
  refine List.Pairwise.imp ?_ hkeys
  intro key key' hne a ha ha'
  obtain ⟨e, he, rfl⟩ := h.sectionPos.mem_getD.1 ha
  obtain ⟨e', he', rfl⟩ := h.sectionPos.mem_getD.1 ha'
  rw [he] at he'
  exact hne (by rw [Option.some.inj he'])

def startedBy (m : ManagerState Box) (entry : EntityEntry Box) : List SharedEntity :=
  if m.isAccessible entry then [entry.entity] else []

theorem startedBy_same (h : m.chunkVisibility = m'.chunkVisibility) (hsame : entry.Same entry') :
    m'.startedBy entry' = m.startedBy entry := by
  unfold startedBy isAccessible isAccessibleAt visibilityOf
  rw [h, hsame.chunk, hsame.ownership, hsame.entity]

theorem Inserts.tracked (h : m.Inserts m' entry) (hnew : entry.entity.id ∉ m.accessibleOrder) :
    Transitions m.accessibleOrder m'.accessibleOrder (m.startedBy entry) [] := by
  rw [h.accessible, startedBy]
  by_cases haccessible : m.isAccessible entry = true
  · rw [if_pos haccessible, if_pos haccessible, OrderedEntityIds.insert_of_not_mem hnew]
    refine ⟨fun id => by simp, nodup_singleton _, ?_⟩
    intro id hid hold
    obtain rfl := mem_singleton.1 hid
    exact absurd hold hnew
  · rw [if_neg haccessible, if_neg haccessible]
    exact .refl _

theorem Removes.tracked (h : m.Removes m' entry.entity.id) (hnodup : m.accessibleOrder.Nodup) :
    Transitions m.accessibleOrder m'.accessibleOrder [] [entry.entity] := by
  rw [h.accessible]
  exact ⟨fun id => by simp [hnodup.mem_erase_iff, and_comm], .nil, nofun⟩

theorem effectiveVisibility_isAccessible (h : entry.Lawful known) (v : EntityVisibility) :
    (effectiveVisibility entry v).isAccessible = true ↔
      entry.ownership = .external ∨ v.isAccessible = true := by
  unfold effectiveVisibility
  split
  · rename_i halways
    simp [h.alwaysTicking halways, EntityVisibility.isAccessible]
  · split
    · rename_i hexternal
      simp [hexternal, EntityVisibility.isAccessible]
    · rename_i hexternal
      simp [hexternal]

theorem effectiveVisibility_managerOwned (h : entry.Lawful known)
    (hown : entry.ownership = .managerOwned) (v : EntityVisibility) :
    effectiveVisibility entry v = v := by
  have hexternal : entry.ownership ≠ .external := by
    rw [hown]
    decide
  unfold effectiveVisibility
  rw [if_neg fun halways => hexternal (h.alwaysTicking halways), if_neg hexternal]

theorem Keeps.applyEntityLifecycleAfterInsert (h : m.Keeps fromAabb known transit unticked visible)
    (hlive : m.liveById id = some entry)
    (hvisible : visible id entry.chunk = m.visibilityOf entry.chunk) :
    ∃ changes ticks,
      m.applyEntityLifecycleAfterInsert id = (changes, { m with tickList := ticks }) ∧
      changes.trackingStarted = m.startedBy entry ∧ changes.trackingStopped = [] ∧
      { m with tickList := ticks }.Keeps fromAabb known transit (fun a => unticked a ∧ a ≠ id)
        visible := by
  have hstarted : (if (effectiveVisibility entry (m.visibilityOf entry.chunk)).isAccessible then
      [entry.entity] else []) = m.startedBy entry := by
    refine if_congr ?_ rfl rfl
    rw [effectiveVisibility_isAccessible (h.lawful id entry hlive)]
    simp [isAccessible, isAccessibleAt]
  unfold ManagerState.applyEntityLifecycleAfterInsert
  rw [hlive]
  dsimp only
  split
  · rename_i hticking
    rw [← hvisible] at hticking
    exact ⟨_, _, rfl, hstarted, rfl, h.startTicking hlive hticking⟩
  · rename_i hticking
    rw [← hvisible] at hticking
    exact ⟨_, _, rfl, hstarted, rfl, h.skipTicking hlive hticking⟩

variable (previous new : EntityVisibility)

/-- What a change of visibility does to a live entity that the manager owns. -/
theorem changeVisibility_eq (hlive : m.liveById id = some entry)
    (hlawful : entry.Lawful known) (hown : entry.ownership = .managerOwned)
    (changes : EntityLifecycleChanges) :
    ∃ changes', changeVisibility previous new (changes, m) id = (changes', { m with
          accessibleOrder :=
            if previous.isAccessible && !new.isAccessible then m.accessibleOrder.erase id
            else if !previous.isAccessible && new.isAccessible then
              OrderedEntityIds.insert m.accessibleOrder id
            else m.accessibleOrder
          tickList :=
            if previous.isTicking && !new.isTicking then (m.tickList.remove id).2
            else if !previous.isTicking && new.isTicking then (m.tickList.add entry.entity).2
            else m.tickList }) ∧
      changes'.trackingStarted = changes.trackingStarted ++
        (if !previous.isAccessible && new.isAccessible then [entry.entity] else []) ∧
      changes'.trackingStopped = changes.trackingStopped ++
        (if previous.isAccessible && !new.isAccessible then [entry.entity] else []) := by
  unfold changeVisibility
  dsimp only
  rw [hlive]
  dsimp only
  rw [effectiveVisibility_managerOwned hlawful hown, effectiveVisibility_managerOwned hlawful hown]
  by_cases hsame : previous = new
  · subst hsame
    rw [if_pos (.inr rfl)]
    cases previous with
    | hidden => exact ⟨_, rfl, (append_nil _).symm, (append_nil _).symm⟩
    | tracked => exact ⟨_, rfl, (append_nil _).symm, (append_nil _).symm⟩
    | ticking => exact ⟨_, rfl, (append_nil _).symm, (append_nil _).symm⟩
  · rw [if_neg (by simp [hown, hsame])]
    cases previous with
    | hidden =>
      cases new with
      | hidden => exact absurd rfl hsame
      | tracked => exact ⟨_, rfl, rfl, (append_nil _).symm⟩
      | ticking => exact ⟨_, rfl, rfl, (append_nil _).symm⟩
    | tracked =>
      cases new with
      | hidden => exact ⟨_, rfl, (append_nil _).symm, rfl⟩
      | tracked => exact absurd rfl hsame
      | ticking => exact ⟨_, rfl, (append_nil _).symm, (append_nil _).symm⟩
    | ticking =>
      cases new with
      | hidden => exact ⟨_, rfl, (append_nil _).symm, rfl⟩
      | tracked => exact ⟨_, rfl, (append_nil _).symm, (append_nil _).symm⟩
      | ticking => exact absurd rfl hsame

/-- Only the lists of accessible and ticking entities change. -/
structure SameLive (m m' : ManagerState Box) : Prop where
  live : m'.liveById = m.liveById
  chunks : m.SameChunks m'

theorem Keeps.changeVisibility {previous new : EntityVisibility}
    (h : m.Keeps fromAabb known transit unticked visible) (hlive : m.liveById id = some entry)
    (hprevious : visible id entry.chunk = previous) (hticked : ¬ unticked id)
    (changes : EntityLifecycleChanges) :
    ∃ changes' m', ManagerState.changeVisibility previous new (changes, m) id = (changes', m') ∧
      m.SameLive m' ∧
      m'.Keeps fromAabb known transit unticked (update visible id fun _ => new) ∧
      ∃ started stopped, changes'.trackingStarted = changes.trackingStarted ++ started ∧
        changes'.trackingStopped = changes.trackingStopped ++ stopped ∧
        Transitions m.accessibleOrder m'.accessibleOrder started stopped ∧
        (∀ e ∈ started, e = entry.entity) ∧
        ∀ e ∈ stopped, e = entry.entity := by
  have hlawful := h.lawful id entry hlive
  have hid : entry.entity.id = id := h.indexed.id id entry hlive
  cases hown : entry.ownership with
  | external =>
    refine ⟨changes, m, ?_, ⟨rfl, rfl, rfl, rfl⟩, ⟨h.indexed, ?_, ?_, h.lawful, h.waiting_lawful,
      h.apart⟩, [], [], (append_nil _).symm, (append_nil _).symm, .refl _, nofun, nofun⟩
    · unfold ManagerState.changeVisibility
      dsimp only
      rw [hlive]
      exact if_pos (.inl (by simp [hown]))
    · refine h.accessible.congr fun a => ?_
      by_cases ha : a = id
      · subst ha
        simp [AccessibleBy, liveWith_of_some hlive, hown]
      · rw [AccessibleBy, AccessibleBy, update_of_ne ha]
    · refine h.ticking.congr fun a entity => and_congr ?_ Iff.rfl
      by_cases ha : a = id
      · subst ha
        simp [TickingBy, liveWith_of_some hlive, effectiveVisibility, hown]
      · rw [TickingBy, TickingBy, update_of_ne ha]
  | managerOwned =>
    obtain ⟨changes', heq, hstarted, hstopped⟩ :=
      changeVisibility_eq previous new hlive hlawful hown changes
    have haccessible : m.AccessibleBy visible id ↔ previous.isAccessible = true := by
      rw [AccessibleBy, liveWith_of_some hlive, hprevious, hown]
      simp
    have hticking : ∀ entity, m.TickingBy visible entry.entity.id entity ∧
        ¬ unticked entry.entity.id ↔ previous.isTicking = true ∧ entity = entry.entity := by
      intro entity
      rw [hid, and_iff_left hticked, TickingBy, liveWith_of_some hlive, hprevious,
        effectiveVisibility_managerOwned hlawful hown, and_comm, @eq_comm _ entity]
    refine ⟨changes', _, heq, ⟨rfl, rfl, rfl, rfl⟩, ⟨{ h.indexed with }, ?_, ?_, h.lawful,
      h.waiting_lawful, h.apart⟩, _, _, hstarted, hstopped, ?_, ?_, ?_⟩
    · refine (OrderedEntityIds.enumerates_retarget h.accessible haccessible).congr fun a => ?_
      by_cases ha : a = id
      · subst ha
        simp [AccessibleBy, liveWith_of_some hlive, hown]
      · simp [AccessibleBy, ha]
    · have hretarget := h.ticking.retarget previous.isTicking new.isTicking hticking
      rw [hid] at hretarget
      refine hretarget.congr fun a entity => ?_
      by_cases ha : a = id
      · subst ha
        have hself : m.TickingBy (update visible a fun _ => new) a entity ↔
            entry.entity = entity ∧ new.isTicking = true := by
          rw [TickingBy, liveWith_of_some hlive, update_self,
            effectiveVisibility_managerOwned hlawful hown]
        refine Iff.trans ?_ (and_congr_left' hself).symm
        simp [hticked, and_comm, @eq_comm _ entity]
      · simp [TickingBy, ha]
    · have hretarget := Transitions.retarget entry.entity previous.isAccessible
        new.isAccessible h.accessible.nodup (by rw [hid, h.accessible.mem, haccessible])
      rwa [hid] at hretarget
    · intro e he
      split at he
      · exact mem_singleton.1 he
      · cases he
    · intro e he
      split at he
      · exact mem_singleton.1 he
      · cases he

theorem SameLive.holds (h : m.SameLive m') : m'.Holds transit e o ↔ m.Holds transit e o := by
  unfold Holds
  rw [h.live, h.chunks.waiting]

theorem SameLive.refl (m : ManagerState Box) : m.SameLive m := ⟨rfl, rfl, rfl, rfl⟩

theorem SameLive.trans {m'' : ManagerState Box} (h : m.SameLive m') (h' : m'.SameLive m'') :
    m.SameLive m'' :=
  ⟨h'.live.trans h.live, h'.chunks.chunkVisibility.trans h.chunks.chunkVisibility,
    h'.chunks.unloadingByChunk.trans h.chunks.unloadingByChunk,
    h'.chunks.savePendingByChunk.trans h.chunks.savePendingByChunk⟩

theorem Keeps.foldl_changeVisibility {ids : List EntityId}
    (h : m.Keeps fromAabb known transit unticked visible) (hnodup : ids.Nodup)
    (hids : ∀ id ∈ ids, ¬ unticked id ∧
      LiveWith m.liveById (fun entry => visible id entry.chunk = previous) id)
    (changes : EntityLifecycleChanges) :
    ∃ changes' m', ids.foldl (ManagerState.changeVisibility previous new) (changes, m) =
        (changes', m') ∧ m.SameLive m' ∧
      m'.Keeps fromAabb known transit unticked
        (fun id chunk => if id ∈ ids then new else visible id chunk) ∧
      ∃ started stopped, changes'.trackingStarted = changes.trackingStarted ++ started ∧
        changes'.trackingStopped = changes.trackingStopped ++ stopped ∧
        Transitions m.accessibleOrder m'.accessibleOrder started stopped ∧
        (∀ e ∈ started, e.id ∈ ids ∧ LiveWith m.liveById (·.entity = e) e.id) ∧
        ∀ e ∈ stopped, e.id ∈ ids ∧ LiveWith m.liveById (·.entity = e) e.id := by
  induction ids generalizing m visible changes with
  | nil =>
    exact ⟨changes, m, rfl, .refl m, h.congr (fun _ => Iff.rfl) (fun _ _ _ => rfl), [], [],
      (append_nil _).symm, (append_nil _).symm, .refl _, nofun, nofun⟩
  | cons id ids ih =>
    obtain ⟨hnew, hnodup⟩ := nodup_cons.1 hnodup
    obtain ⟨hticked, entry, hlive, hprevious⟩ := hids id mem_cons_self
    obtain ⟨changes₁, m₁, hfirst, hsame₁, hkeeps₁, started₁, stopped₁, hstarted₁, hstopped₁,
      htracked₁, hsource₁, hsource₁'⟩ := h.changeVisibility hlive hprevious hticked changes
    have hid : entry.entity.id = id := h.indexed.id id entry hlive
    have hids₁ : ∀ a ∈ ids, ¬ unticked a ∧ LiveWith m₁.liveById
        (fun entry => update visible id (fun _ => new) a entry.chunk = previous) a := by
      intro a ha
      have hne : a ≠ id := by
        rintro rfl
        exact hnew ha
      rw [hsame₁.live, update_of_ne hne]
      exact hids a (mem_cons_of_mem id ha)
    obtain ⟨changes₂, m₂, hrest, hsame₂, hkeeps₂, started₂, stopped₂, hstarted₂, hstopped₂,
      htracked₂, hsource₂, hsource₂'⟩ := ih hkeeps₁ hnodup hids₁ changes₁
    have hown : ∀ e, e = entry.entity →
        e.id ∈ id :: ids ∧ LiveWith m.liveById (·.entity = e) e.id := by
      rintro e rfl
      rw [hid]
      exact ⟨mem_cons_self, entry, hlive, rfl⟩
    refine ⟨changes₂, m₂, ?_, hsame₁.trans hsame₂, hkeeps₂.congr (fun _ => Iff.rfl) ?_,
      started₁ ++ started₂, stopped₁ ++ stopped₂, ?_, ?_, htracked₁.trans htracked₂ ?_, ?_, ?_⟩
    · rw [foldl_cons, hfirst]
      exact hrest
    · intro a e _
      by_cases ha : a = id
      · subst ha
        simp [update_self]
      · simp [ha]
    · rw [hstarted₂, hstarted₁, append_assoc]
    · rw [hstopped₂, hstopped₁, append_assoc]
    · intro a ha ha'
      obtain ⟨e, he, rfl⟩ := mem_map.1 ha
      obtain ⟨e', he', heq⟩ := mem_map.1 ha'
      obtain rfl := hsource₁ e he
      rw [hid] at heq
      exact hnew (heq ▸ (hsource₂' e' he').1)
    · intro e he
      rcases mem_append.1 he with he | he
      · exact hown e (hsource₁ e he)
      · exact ⟨mem_cons_of_mem id (hsource₂ e he).1, hsame₁.live ▸ (hsource₂ e he).2⟩
    · intro e he
      rcases mem_append.1 he with he | he
      · exact hown e (hsource₁' e he)
      · exact ⟨mem_cons_of_mem id (hsource₂' e he).1, hsame₁.live ▸ (hsource₂' e he).2⟩

end ManagerState

end Steel
