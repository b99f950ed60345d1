import Steel.Entity.EntityMembership
import Steel.Entity.RidingForest

/-! # Operations of the entity manager

Each operation leaves the indexes exact and reports who starts and who stops to be tracked.
-/

namespace Steel

open Function (update_of_ne update update_self)

open ManagerState List

variable {Box : Type} {fromAabb : Box → EntitySpatialCellBounds} {view : EntityView Box}
  {m m' : ManagerState Box} {known : EntityId → Prop} {id : EntityId} {pos : ChunkPos}
  {entry entry' : EntityEntry Box}

def ManagerState.Exact (fromAabb : Box → EntitySpatialCellBounds) (known : EntityId → Prop)
    (m : ManagerState Box) : Prop :=
  m.Keeps fromAabb known [] (fun _ => False) fun _ => m.visibilityOf

def LiveStays (m m' : ManagerState Box) : Prop :=
  ∀ id P, LiveWith m.liveById P id → LiveWith m'.liveById P id

theorem LiveStays.trans {m'' : ManagerState Box} (h : LiveStays m m') (h' : LiveStays m' m'') :
    LiveStays m m'' :=
  fun id P hP => h' id P (h id P hP)

/-- The report of an operation: it is right about the accessible ids, and who starts is live. -/
def Reports (m m' : ManagerState Box) (started stopped : List SharedEntity) : Prop :=
  Transitions m.accessibleOrder m'.accessibleOrder started stopped ∧
    ∀ e ∈ started, LiveWith m'.liveById (·.entity = e) e.id

theorem Reports.refl (m : ManagerState Box) : Reports m m [] [] := ⟨.refl _, nofun⟩

theorem Reports.trans {m'' : ManagerState Box} {started started' : List SharedEntity}
    (h : Reports m m' started []) (h' : Reports m' m'' started' []) (hstays : LiveStays m' m'') :
    Reports m m'' (started ++ started') [] := by
  refine ⟨h.1.trans h'.1 (by simp), fun e he => ?_⟩
  rcases mem_append.1 he with he | he
  · exact hstays e.id _ (h.2 e he)
  · exact h'.2 e he

namespace ManagerState

theorem SameChunks.visibilityOf (h : m.SameChunks m') : m'.visibilityOf = m.visibilityOf := by
  funext chunk
  unfold ManagerState.visibilityOf
  rw [h.chunkVisibility]

theorem SameLive.visibilityOf (h : m.SameLive m') : m'.visibilityOf = m.visibilityOf :=
  h.chunks.visibilityOf

theorem Inserts.liveStays (h : m.Inserts m' entry) (hid : m.liveById entry.entity.id = none) :
    LiveStays m m' := by
  intro id P hP
  rw [h.live, ← liveWith_inserted hid]
  exact .inl hP

variable {unticked : EntityId → Prop} {entries : List (EntityEntry Box)}
  {ownership : EntityOwnership} {entities : List SharedEntity}

variable {transit : List (EntityEntry Box)}

theorem Keeps.withVisibility {visible : EntityId → ChunkPos → EntityVisibility}
    (h : m.Keeps fromAabb known transit unticked visible)
    (chunkVisibility : ChunkPos → Option EntityVisibility) :
    { m with chunkVisibility := chunkVisibility }.Keeps fromAabb known transit unticked visible :=
  ⟨{ h.indexed with }, h.accessible, h.ticking, h.lawful, h.waiting_lawful, h.apart⟩

theorem Exact.applyChunkVisibilityChange (h : m.Exact fromAabb known) (hpos : pos.InPackedRange)
    {chunkVisibility : ChunkPos → Option EntityVisibility} {new : EntityVisibility}
    (hnew : (chunkVisibility pos).getD .hidden = new)
    (hothers : ∀ chunk, chunk ≠ pos → chunkVisibility chunk = m.chunkVisibility chunk) :
    ∃ changes m', { m with chunkVisibility := chunkVisibility }.applyChunkVisibilityChange pos
        (m.visibilityOf pos) new = (changes, m') ∧
      { m with chunkVisibility := chunkVisibility }.SameLive m' ∧ m'.Exact fromAabb known ∧
      Transitions m.accessibleOrder m'.accessibleOrder changes.trackingStarted
        changes.trackingStopped ∧
      (∀ e ∈ changes.trackingStarted, LiveWith m.liveById (·.entity = e) e.id) ∧
      ∀ e ∈ changes.trackingStopped,
        LiveWith m.liveById (fun entry => entry.entity = e ∧ entry.chunk = pos) e.id := by
  have hids := fun id => mem_entityIdsInChunkOrder id h.indexed h.lawful hpos
  obtain ⟨changes, m', heq, hsame, hkeeps, started, stopped, hstarted, hstopped, htracked, hsource,
    hsource'⟩ := (h.withVisibility chunkVisibility).foldl_changeVisibility
      (m.visibilityOf pos) new (nodup_entityIdsInChunkOrder h.indexed pos)
      (fun id hid => by
        obtain ⟨entry, hlive, hchunk⟩ := (hids id).1 hid
        exact ⟨not_false, entry, hlive, congrArg m.visibilityOf hchunk⟩) .none
  obtain rfl : changes.trackingStarted = started := hstarted
  obtain rfl : changes.trackingStopped = stopped := hstopped
  refine ⟨changes, m', heq, hsame, ?_, htracked, fun e he => (hsource e he).2, ?_⟩
  · refine hkeeps.congr (fun _ => Iff.rfl) fun id entry hlive => ?_
    rw [hsame.live] at hlive
    rw [hsame.visibilityOf]
    by_cases hchunk : entry.chunk = pos
    · rw [if_pos ((hids id).2 ⟨entry, hlive, hchunk⟩), hchunk]
      exact hnew.symm
    · have hnot : id ∉ m.entityIdsInChunkOrder pos := by
        intro hid
        obtain ⟨entry', hlive', hchunk'⟩ := (hids id).1 hid
        rw [hlive] at hlive'
        exact hchunk (Option.some.inj hlive' ▸ hchunk')
      rw [if_neg hnot]
      exact congrArg (Option.getD · .hidden) (hothers entry.chunk hchunk).symm
  · intro e he
    obtain ⟨entry, hlive, rfl⟩ := (hsource' e he).2
    obtain ⟨entry', hlive', hchunk⟩ := (hids _).1 (hsource' _ he).1
    obtain rfl := Option.some.inj (hlive.symm.trans hlive')
    exact ⟨entry, hlive, rfl, hchunk⟩

theorem Exact.updateChunkVisibility (h : m.Exact fromAabb known) (hpos : pos.InPackedRange)
    (visibility : EntityVisibility) :
    (m.updateChunkVisibility pos visibility).2.Exact fromAabb known ∧
      Reports m (m.updateChunkVisibility pos visibility).2
        (m.updateChunkVisibility pos visibility).1.trackingStarted
        (m.updateChunkVisibility pos visibility).1.trackingStopped ∧
      ∀ e o, m.Holds [] e o → (m.updateChunkVisibility pos visibility).2.Holds [] e o := by
  have hupdate : (update m.chunkVisibility pos (some visibility) pos).getD .hidden =
      visibility := by rw [update_self]; rfl
  unfold ManagerState.updateChunkVisibility
  dsimp only
  split
  · rename_i hsame
    refine ⟨?_, .refl m, fun e o he => he⟩
    refine (h.withVisibility _).congr (fun _ => Iff.rfl) fun id entry _ => ?_
    by_cases hchunk : entry.chunk = pos
    · rw [hchunk, hsame]
      exact hupdate.symm
    · unfold visibilityOf
      dsimp only
      rw [update_of_ne hchunk]
  · obtain ⟨changes, m', heq, hsame, hexact, htracked, hsource, -⟩ :=
      h.applyChunkVisibilityChange hpos hupdate fun chunk hchunk => update_of_ne hchunk ..
    rw [heq]
    exact ⟨hexact, ⟨htracked, fun e he => hsame.live ▸ hsource e he⟩,
      fun e o he => hsame.holds.2 he⟩

theorem Keeps.insertAndStart
    (h : m.Keeps fromAabb known (entry :: transit) (fun _ => False) fun _ => m.visibilityOf) :
    Returns (fun m' => ∃ changes ticks,
        m'.applyEntityLifecycleAfterInsert entry.entity.id =
          (changes, { m' with tickList := ticks }) ∧
        changes.trackingStopped = [] ∧ m.SameChunks m' ∧ LiveStays m m' ∧
        Reports m { m' with tickList := ticks } changes.trackingStarted [] ∧
        { m' with tickList := ticks }.Keeps fromAabb known transit (fun _ => False)
          (fun _ => m'.visibilityOf) ∧
        LiveWith m'.liveById entry.Same entry.entity.id ∧
        ∀ e o, m.Holds (entry :: transit) e o → { m' with tickList := ticks }.Holds transit e o)
      (m.insertLiveEntry fromAabb view entry) := by
  refine (h.insertLiveEntry rfl).mono ?_
  rintro m' ⟨entry', hsame, hinserts, hkeeps⟩
  have hid : m.liveById entry'.entity.id = none := by
    rw [hsame.entity]
    exact h.apart.live_id entry mem_cons_self
  have hlive : m'.liveById entry.entity.id = some entry' := by
    rw [hinserts.live, hsame.entity, update_self]
  have hnew : entry'.entity.id ∉ m.accessibleOrder := by
    intro hmem
    exact ((h.accessible.mem _).1 hmem).ne_of_none hid rfl
  rw [← hinserts.chunks.visibilityOf] at hkeeps
  obtain ⟨changes, ticks, heq, hstarted, hstopped, hticking⟩ :=
    hkeeps.applyEntityLifecycleAfterInsert hlive rfl
  have htracked := hinserts.tracked hnew
  rw [← startedBy_same hinserts.chunks.chunkVisibility.symm ⟨rfl, rfl, rfl, rfl, rfl⟩,
    ← hstarted] at htracked
  refine ⟨changes, ticks, heq, hstopped, hinserts.chunks, hinserts.liveStays hid,
    ⟨htracked, ?_⟩,
    hticking.congr (fun id => by simp) (fun _ _ _ => rfl), ⟨entry', hlive, hsame⟩,
    fun e o he => hinserts.holds hsame (hsame.entity ▸ hid) he⟩
  intro e he
  rw [hstarted, startedBy] at he
  split at he
  · obtain rfl := mem_singleton.1 he
    rw [hsame.entity]
    exact ⟨entry', hlive, hsame.entity⟩
  · cases he

/-- Entries that are not removed become live again, and others wait if they should be saved. -/
structure Restores (view : EntityView Box) (entries : List (EntityEntry Box)) (m : ManagerState Box)
    (state : ChunkEntityLoadResult × ManagerState Box) : Prop where
  live : ∀ entry ∈ entries, view.isRemoved entry.entity.id = false →
    LiveWith state.2.liveById entry.Same entry.entity.id ∧ entry.entity ∈ state.1.restored
  holds : ∀ e o, m.Holds entries e o → state.2.Holds [] e o ∨
    ∃ entry ∈ entries, entry.Of e o ∧ view.isRemoved e.id = true ∧ entry.shouldSave view = false

theorem Keeps.foldlM_restoreEntry
    (h : m.Keeps fromAabb known entries (fun _ => False) fun _ => m.visibilityOf)
    (result : ChunkEntityLoadResult) :
    Returns (fun state => state.2.Exact fromAabb known ∧ LiveStays m state.2 ∧
        (∃ started, state.1.trackingStarted = result.trackingStarted ++ started ∧
          Reports m state.2 started []) ∧
        Restores view entries m state ∧ ∀ e ∈ result.restored, e ∈ state.1.restored)
      (entries.foldlM (restoreEntry fromAabb view pos) (result, m)) := by
  induction entries generalizing m result with
  | nil =>
    exact ⟨h, fun _ _ hP => hP, ⟨[], (append_nil _).symm, .refl m⟩,
      ⟨nofun, fun e o he => .inl he⟩, fun e he => he⟩
  | cons entry entries ih =>
    have hmore : ∀ {e : SharedEntity} {o : EntityOwnership},
        (∃ entry ∈ entries, entry.Of e o ∧ view.isRemoved e.id = true ∧
          entry.shouldSave view = false) →
        ∃ entry' ∈ entry :: entries, entry'.Of e o ∧ view.isRemoved e.id = true ∧
          entry'.shouldSave view = false :=
      fun ⟨entry, hentry, hdropped⟩ => ⟨entry, mem_cons_of_mem _ hentry, hdropped⟩
    rw [foldlM_cons]
    unfold restoreEntry
    dsimp only
    split
    · rename_i hremoved
      have hnot : ∀ {P : Prop}, view.isRemoved entry.entity.id = false → P := by
        intro P hfalse
        rw [hremoved] at hfalse
        cases hfalse
      split
      · have hperm : (contents m.unloadingByChunk ++ contents (m.savePendingByChunk.insert pos
            ((m.savePendingByChunk.lookup pos).getD [] ++ [entry]))).Perm (entry :: m.waiting) := by
          refine ((contents_append m.savePendingByChunk pos [entry]).append_left _).trans ?_
          exact perm_append_comm_assoc _ _ _
        have hpending : { m with
            savePendingByChunk := m.savePendingByChunk.insert pos
              ((m.savePendingByChunk.lookup pos).getD [] ++ [entry]) }.Keeps fromAabb known entries
              (fun _ => False) fun _ => m.visibilityOf := by
          refine h.rewait m.unloadingByChunk _ (List.Perm.subperm ?_)
          exact (hperm.append_left entries).trans perm_middle
        refine (ih hpending { result with needsSave := true }).mono ?_
        rintro state ⟨hexact, hstays, hreports, hrestores, hrestored⟩
        refine ⟨hexact, hstays, hreports, ⟨fun entry' hentry' => ?_, fun e o he => ?_⟩, hrestored⟩
        · rcases mem_cons.1 hentry' with rfl | hentry'
          · exact hnot
          · exact hrestores.live entry' hentry'
        · refine (hrestores.holds e o ?_).imp_right hmore
          refine he.imp_right fun ⟨entry', hentry', hof⟩ => ⟨entry', ?_, hof⟩
          exact ((hperm.append_left entries).trans perm_middle).mem_iff.2 hentry'
      · rename_i hsave
        refine (ih (h.sublist (sublist_cons_self entry entries)) result).mono ?_
        rintro state ⟨hexact, hstays, hreports, hrestores, hrestored⟩
        refine ⟨hexact, hstays, hreports, ⟨fun entry' hentry' => ?_, fun e o he => ?_⟩, hrestored⟩
        · rcases mem_cons.1 hentry' with rfl | hentry'
          · exact hnot
          · exact hrestores.live entry' hentry'
        · rcases he with hlive | ⟨entry', hentry', hof⟩
          · exact (hrestores.holds e o (.inl hlive)).imp_right hmore
          · rcases mem_cons.1 hentry' with rfl | hentry'
            · refine .inr ⟨entry', mem_cons_self, hof, ?_, Bool.eq_false_of_not_eq_true hsave⟩
              rw [← hof.1]
              exact hremoved
            · exact (hrestores.holds e o (.inr ⟨entry', hentry', hof⟩)).imp_right hmore
    · rw [bind_assoc]
      refine h.insertAndStart.bind ?_
      rintro m₁ ⟨changes, ticks, heq, -, hchunks, hstays, hreports, hkeeps, hlive, hholds⟩
      rw [heq, pure_bind]
      refine (ih hkeeps _).mono ?_
      rintro ⟨result', m'⟩ ⟨hexact, hstays', ⟨started, hstarted, hreports'⟩, hrestores, hrestored⟩
      refine ⟨hexact, hstays.trans hstays', ⟨changes.trackingStarted ++ started, ?_,
        hreports.trans hreports' hstays'⟩, ⟨fun entry' hentry' hpresent => ?_, fun e o he => ?_⟩,
        fun e he => hrestored e (mem_append_left _ he)⟩
      · rw [hstarted, append_assoc]
      · rcases mem_cons.1 hentry' with rfl | hentry'
        · exact ⟨hstays' _ _ hlive, hrestored _ (mem_append_right _ mem_cons_self)⟩
        · exact hrestores.live entry' hentry' hpresent
      · exact (hrestores.holds e o (hholds e o he)).imp_right hmore

section

variable (h : m.Exact fromAabb known)

include h

theorem Exact.onChunkLoaded :
    Returns (fun state => state.2.Exact fromAabb known ∧
        Reports m state.2 state.1.trackingStarted [] ∧ ∃ m₁ : ManagerState Box,
          (∀ e o, m.Holds [] e o → m₁.Holds ((m.unloadingByChunk.lookup pos).getD []) e o) ∧
          Restores view ((m.unloadingByChunk.lookup pos).getD []) m₁ state)
      (m.onChunkLoaded fromAabb view pos) := by
  have hsame : ∀ unloading, { m with
      chunkVisibility := update m.chunkVisibility pos (some (m.visibilityOf pos))
      unloadingByChunk := unloading }.visibilityOf = m.visibilityOf := by
    intro unloading
    funext chunk
    unfold ManagerState.visibilityOf
    dsimp only
    by_cases hchunk : chunk = pos
    · subst hchunk
      rw [update_self]
      rfl
    · rw [update_of_ne hchunk]
  unfold ManagerState.onChunkLoaded
  dsimp only
  cases hentries : m.unloadingByChunk.lookup pos with
  | none =>
    refine ⟨?_, .refl m, m, fun e o he => he, nofun, fun e o he => .inl he⟩
    exact (h.withVisibility _).congr (fun _ => Iff.rfl) fun id entry _ =>
      congrFun (hsame m.unloadingByChunk).symm entry.chunk
  | some entries =>
    have hperm := contents_perm m.unloadingByChunk pos
    rw [hentries, Option.getD_some] at hperm
    have hwaiting : (entries ++ (contents (m.unloadingByChunk.erase pos) ++ m.savePending)).Perm
        m.waiting := by
      rw [← append_assoc]
      exact hperm.symm.append_right _
    have htransit : { m with
        chunkVisibility := update m.chunkVisibility pos (some (m.visibilityOf pos))
        unloadingByChunk := m.unloadingByChunk.erase pos }.Keeps fromAabb known entries
          (fun _ => False) fun _ => m.visibilityOf :=
      (h.withVisibility _).rewait _ m.savePendingByChunk hwaiting.subperm
    refine ((htransit.congr (fun _ => Iff.rfl) fun id entry _ =>
      congrFun (hsame _).symm entry.chunk).foldlM_restoreEntry ⟨[], [], [], false⟩).mono ?_
    rintro ⟨result, m'⟩ ⟨hexact, -, ⟨started, hstarted, hreports⟩, hrestores, -⟩
    rw [hstarted]
    refine ⟨hexact, hreports, _, fun e o he => ?_, hrestores⟩
    exact he.imp_right fun ⟨entry, hentry, hof⟩ => ⟨entry, hwaiting.mem_iff.2 hentry, hof⟩

theorem Exact.finalizeChunkUnload :
    (m.finalizeChunkUnload pos).2.Exact fromAabb known := by
  refine h.rewait _ m.savePendingByChunk ?_
  have hperm := contents_perm m.unloadingByChunk pos
  have hsub : (contents (m.unloadingByChunk.erase pos) ++ m.savePending).Sublist
      (((m.unloadingByChunk.lookup pos).getD [] ++ contents (m.unloadingByChunk.erase pos)) ++
        m.savePending) := (sublist_append_right _ _).append_right _
  exact hsub.subperm.trans (hperm.symm.append_right _).subperm

theorem Exact.onChunkSaved (savedEntityIds : List EntityId) :
    (m.onChunkSaved pos savedEntityIds).Exact fromAabb known := by
  unfold ManagerState.onChunkSaved
  split
  · exact h
  · cases hentries : m.savePendingByChunk.lookup pos with
    | none => exact h
    | some entries =>
      have hperm := contents_perm m.savePendingByChunk pos
      rw [hentries] at hperm
      dsimp only
      split
      · refine h.rewait m.unloadingByChunk _ ?_
        refine (List.Sublist.subperm ?_).trans (hperm.symm.append_left m.unloading).subperm
        rw [nil_append]
        exact (sublist_append_right _ _).append_left _
      · refine h.rewait m.unloadingByChunk _ ?_
        refine (List.Sublist.subperm ?_).trans (hperm.symm.append_left m.unloading).subperm
        exact (filter_sublist.append_right _).append_left _

theorem Exact.removeLiveEntity (id : EntityId) (reason : RemovalReason) :
    (m.removeLiveEntity view id reason).2.Exact fromAabb known ∧
      ∃ stopped, Reports m (m.removeLiveEntity view id reason).2 [] stopped ∧
        ∀ e ∈ stopped, e.id = id := by
  unfold ManagerState.removeLiveEntity
  cases hlive : m.liveById id with
  | none =>
    have hnone : m.removeLiveEntry id = none := by
      unfold ManagerState.removeLiveEntry
      rw [hlive]
    rw [hnone]
    exact ⟨h, [], .refl m, nofun⟩
  | some entry =>
    obtain ⟨m', heq, hremoves, hkeeps⟩ := h.removeLiveEntry hlive
    have hid := h.indexed.id id entry hlive
    rw [← hid] at hremoves
    have htracked := hremoves.tracked h.accessible.nodup
    rw [← hremoves.chunks.visibilityOf] at hkeeps
    rw [heq]
    dsimp only
    split
    · refine ⟨?_, [entry.entity], ⟨htracked, nofun⟩, by simp [hid]⟩
      refine hkeeps.rewait m'.unloadingByChunk _ (List.Perm.subperm ?_)
      refine ((contents_append m'.savePendingByChunk entry.chunk [entry]).append_left _).trans ?_
      exact perm_append_comm_assoc _ _ _
    · exact ⟨hkeeps.sublist (sublist_cons_self ..), [entry.entity], ⟨htracked, nofun⟩,
        by simp [hid]⟩

end

/-- The entities may be added: they are new, and only external ones always tick. -/
structure Addable (known : EntityId → Prop) (view : EntityView Box) (ownership : EntityOwnership)
    (entities : List SharedEntity) : Prop where
  fresh : ∀ e ∈ entities, ¬ known e.id
  nodup : (entities.map SharedEntity.id).Nodup
  inPackedRange : ∀ e ∈ entities, (view.sectionPos e.id).chunk.InPackedRange
  alwaysTicking : ∀ e ∈ entities, e.isAlwaysTicking = true → ownership = .external

theorem lawful_new (h : Addable known view ownership entities) {e : SharedEntity}
    (he : e ∈ entities) :
    (EntityEntry.new fromAabb view e ownership).Lawful
      (fun id => known id ∨ id ∈ entities.map SharedEntity.id) where
  known := .inr (mem_map_of_mem he)
  uuid := rfl
  chunk := rfl
  inPackedRange := h.inPackedRange e he
  alwaysTicking := h.alwaysTicking e he

theorem containsId_eq_false (h : m.Exact fromAabb known) (hid : ¬ known id) :
    m.containsId id = false := by
  have hwaiting : ∀ entry ∈ m.waiting, entry.entity.id ≠ id := by
    rintro entry hentry rfl
    exact hid (h.waiting_lawful entry hentry).known
  have hlive : m.liveById id = none := by
    rw [Option.eq_none_iff_forall_ne_some]
    intro entry hentry
    exact hid (h.indexed.id id entry hentry ▸ (h.lawful id entry hentry).known)
  unfold containsId
  simp only [hlive, Option.isSome_none, Bool.false_or, Bool.or_eq_false_iff, any_eq_false,
    decide_eq_true_iff]
  exact ⟨fun entry hentry => hwaiting entry (mem_append_left _ hentry),
    fun entry hentry => hwaiting entry (mem_append_right _ hentry)⟩

theorem containsUuid_eq_false {uuid : Uuid} :
    m.containsUuid uuid = false ↔
      m.liveByUuid uuid = none ∧ ∀ entry ∈ m.waiting, entry.uuid ≠ uuid := by
  simp [containsUuid, ManagerState.waiting, any_eq_false, or_imp, forall_and, and_assoc]

theorem validateLiveEntries_spec (ownership : EntityOwnership) (requireLoadedChunks : Bool)
    (entries : List (EntityEntry Box)) (h : m.Exact fromAabb known)
    (hfresh : ∀ e ∈ entries, ¬ known e.entity.id) :
    ∃ result, m.validateLiveEntries ownership requireLoadedChunks entries = .ok result ∧
      (result = .ok () → ∀ e ∈ entries, m.containsUuid e.uuid = false) := by
  induction entries with
  | nil => exact ⟨_, rfl, fun _ => nofun⟩
  | cons entry entries ih =>
    unfold validateLiveEntries
    rw [if_neg (by simp [containsId_eq_false h (hfresh entry mem_cons_self)])]
    split
    · exact ⟨_, rfl, nofun⟩
    · rename_i huuid
      split
      · exact ⟨_, rfl, nofun⟩
      · obtain ⟨result, hresult, himp⟩ := ih fun e he => hfresh e (mem_cons_of_mem _ he)
        refine ⟨result, hresult, fun hok e he => ?_⟩
        rcases mem_cons.1 he with rfl | he
        · exact Bool.eq_false_of_not_eq_true huuid
        · exact himp hok e he

theorem checkTree_spec (entries : List (EntityEntry Box)) (seenIds : List EntityId)
    (seenUuids : List Uuid) (hids : (entries.map (·.entity.id)).Nodup)
    (hseen : ∀ e ∈ entries, e.entity.id ∉ seenIds) :
    ∃ result, checkTree entries seenIds seenUuids = .ok result ∧
      (result = .ok () → (entries.map (·.uuid)).Nodup ∧ ∀ e ∈ entries, e.uuid ∉ seenUuids) := by
  induction entries generalizing seenIds seenUuids with
  | nil => exact ⟨_, rfl, fun _ => ⟨.nil, nofun⟩⟩
  | cons entry entries ih =>
    rw [map_cons, nodup_cons] at hids
    unfold checkTree
    rw [if_neg (hseen entry mem_cons_self)]
    split
    · exact ⟨_, rfl, nofun⟩
    · rename_i huuid
      have hseen' : ∀ e ∈ entries, e.entity.id ∉ entry.entity.id :: seenIds := by
        intro e he hmem
        rcases mem_cons.1 hmem with heq | hmem
        · exact hids.1 (mem_map.2 ⟨e, he, heq⟩)
        · exact hseen e (mem_cons_of_mem _ he) hmem
      obtain ⟨result, hresult, himp⟩ := ih _ (entry.uuid :: seenUuids) hids.2 hseen'
      refine ⟨result, hresult, fun hok => ?_⟩
      obtain ⟨hnodup, hnew⟩ := himp hok
      rw [map_cons, nodup_cons]
      refine ⟨⟨fun hmem => ?_, hnodup⟩, fun e he => ?_⟩
      · obtain ⟨e, he, heq⟩ := mem_map.1 hmem
        exact hnew e he (heq ▸ mem_cons_self)
      · rcases mem_cons.1 he with rfl | he
        · exact huuid
        · exact fun hmem => hnew e he (mem_cons_of_mem _ hmem)

theorem Exact.admit (h : m.Exact fromAabb known) (hadd : Addable known view ownership entities)
    (huuids : ((entities.map fun e => EntityEntry.new fromAabb view e ownership).map
      (·.uuid)).Nodup) (hnew : ∀ e ∈ entities, m.containsUuid e.uuid = false) :
    m.Keeps fromAabb (fun id => known id ∨ id ∈ entities.map SharedEntity.id)
      (entities.map fun e => .new fromAabb view e ownership) (fun _ => False)
      fun _ => m.visibilityOf := by
  have hmono := h.mono (fun id => known id ∨ id ∈ entities.map SharedEntity.id)
    fun id hid => .inl hid
  have hids : (entities.map fun e => EntityEntry.new fromAabb view e ownership).map
      (·.entity.id) = entities.map SharedEntity.id := by
    rw [map_map]
    rfl
  refine ⟨h.indexed, h.accessible, h.ticking, hmono.lawful, ?_, ?_, ?_, ?_, ?_⟩
  · intro entry hentry
    rcases mem_append.1 hentry with hentry | hentry
    · obtain ⟨e, he, rfl⟩ := mem_map.1 hentry
      exact lawful_new hadd he
    · exact hmono.waiting_lawful entry hentry
  · rw [map_append, hids, nodup_append]
    refine ⟨hadd.nodup, h.apart.ids, ?_⟩
    rintro a ha b hb rfl
    obtain ⟨e, he, rfl⟩ := mem_map.1 ha
    obtain ⟨entry, hentry, heq⟩ := mem_map.1 hb
    exact hadd.fresh e he (heq ▸ (h.waiting_lawful entry hentry).known)
  · rw [map_append, nodup_append]
    refine ⟨huuids, h.apart.uuids, ?_⟩
    rintro a ha b hb rfl
    obtain ⟨e, he, rfl⟩ : ∃ e ∈ entities, e.uuid = a := by
      rw [map_map] at ha
      exact mem_map.1 ha
    obtain ⟨entry, hentry, heq⟩ := mem_map.1 hb
    exact (containsUuid_eq_false.1 (hnew e he)).2 entry hentry heq
  · intro entry hentry
    rcases mem_append.1 hentry with hentry | hentry
    · obtain ⟨e, he, rfl⟩ := mem_map.1 hentry
      rw [Option.eq_none_iff_forall_ne_some]
      intro entry hlive
      exact hadd.fresh e he (h.indexed.id _ entry hlive ▸ (h.lawful _ entry hlive).known)
    · exact h.apart.live_id entry hentry
  · intro entry hentry
    rcases mem_append.1 hentry with hentry | hentry
    · obtain ⟨e, he, rfl⟩ := mem_map.1 hentry
      intro id hlive
      have hnone := (containsUuid_eq_false.1 (hnew e he)).1
      rw [← h.indexed.uuid] at hlive
      exact absurd (hnone.symm.trans hlive) nofun
    · exact h.apart.live_uuid entry hentry

/-- An operation that adds entities keeps the indexes exact, and one that fails changes nothing. -/
def Adds (fromAabb : Box → EntitySpatialCellBounds) (known : EntityId → Prop) (m : ManagerState Box)
    (entities : List SharedEntity) (ownership : EntityOwnership)
    (state : Except AddEntityError EntityLifecycleChanges × ManagerState Box) : Prop :=
  match state.1 with
  | .error _ => state.2 = m
  | .ok lifecycle =>
    state.2.Exact fromAabb (fun id => known id ∨ id ∈ entities.map SharedEntity.id) ∧
      lifecycle.trackingStopped = [] ∧ Reports m state.2 lifecycle.trackingStarted [] ∧
      (∀ e ∈ entities, LiveWith state.2.liveById (EntityEntry.Of e ownership) e.id) ∧
      ∀ e o, m.Holds [] e o → state.2.Holds [] e o

theorem Exact.addLiveEntity {entity : SharedEntity} (h : m.Exact fromAabb known)
    (hadd : Addable known view ownership [entity]) :
    Returns (Adds fromAabb known m [entity] ownership)
      (m.addLiveEntity fromAabb view entity ownership) := by
  unfold ManagerState.addLiveEntity checkedLiveEntry
  split
  · rename_i hchecked
    exact rfl
  · rename_i entry hchecked
    split at hchecked
    · cases hchecked
    · obtain rfl := Except.ok.inj hchecked
      obtain ⟨result, hresult, himp⟩ := validateLiveEntries_spec ownership true
        [.new fromAabb view entity ownership] h
        (by simpa [EntityEntry.new] using hadd.fresh)
      rw [hresult]
      cases result with
      | error error => exact rfl
      | ok _ =>
        have hkeeps := h.admit hadd (nodup_singleton _)
          (by simpa [EntityEntry.new] using himp rfl)
        refine hkeeps.insertAndStart.bind ?_
        rintro m' ⟨changes, ticks, heq, hstopped, hchunks, hstays, hreports, hkeeps',
          ⟨entry, hlive, hsame⟩, -⟩
        rw [heq]
        refine ⟨hkeeps', hstopped, hreports, ?_, fun e o he => ?_⟩
        · intro e he
          obtain rfl := mem_singleton.1 he
          exact ⟨entry, hlive, hsame.of_iff.2 ⟨rfl, rfl⟩⟩
        · exact he.of_live hchunks.waiting (hstays _ _)

theorem mapM_checkedLiveEntry
    (h : entities.mapM (checkedLiveEntry fromAabb view ownership) = .ok entries) :
    entries = entities.map fun e => .new fromAabb view e ownership := by
  induction entities generalizing entries with
  | nil => exact (Except.ok.inj h).symm
  | cons entity entities ih =>
    rw [mapM_cons] at h
    unfold checkedLiveEntry at h
    split at h
    · cases h
    · cases hrest : entities.mapM (checkedLiveEntry fromAabb view ownership) with
      | error error =>
        unfold checkedLiveEntry at hrest
        rw [hrest] at h
        cases h
      | ok rest =>
        rw [map_cons, ← ih hrest]
        unfold checkedLiveEntry at hrest
        rw [hrest] at h
        exact (Except.ok.inj h).symm

theorem Keeps.foldlM_insertLiveEntry
    (h : m.Keeps fromAabb known entries unticked fun _ => m.visibilityOf) :
    Returns (fun m' => m'.Keeps fromAabb known []
          (fun id => unticked id ∨ id ∈ entries.map (·.entity.id)) (fun _ => m'.visibilityOf) ∧
        m.SameChunks m' ∧ LiveStays m m' ∧
        Transitions m.accessibleOrder m'.accessibleOrder (entries.flatMap m.startedBy) [] ∧
        ∀ e ∈ entries, LiveWith m'.liveById e.Same e.entity.id)
      (entries.foldlM (fun m entry => m.insertLiveEntry fromAabb view entry) m) := by
  induction entries generalizing m unticked with
  | nil =>
    exact ⟨h.congr (fun _ => by simp) (fun _ _ _ => rfl), ⟨rfl, rfl, rfl⟩, fun _ _ hP => hP,
      .refl _, nofun⟩
  | cons entry entries ih =>
    refine (h.insertLiveEntry rfl).bind ?_
    rintro m₁ ⟨entry', hsame, hinserts, hkeeps⟩
    have hid : m.liveById entry'.entity.id = none := by
      rw [hsame.entity]
      exact h.apart.live_id entry mem_cons_self
    have hnew : entry'.entity.id ∉ m.accessibleOrder := fun hmem =>
      ((h.accessible.mem _).1 hmem).ne_of_none hid rfl
    have htracked := hinserts.tracked hnew
    have hstarted : ∀ e, m₁.startedBy e = m.startedBy e := fun e =>
      startedBy_same hinserts.chunks.chunkVisibility.symm ⟨rfl, rfl, rfl, rfl, rfl⟩
    rw [startedBy_same rfl hsame] at htracked
    rw [← hinserts.chunks.visibilityOf] at hkeeps
    refine (ih hkeeps).mono ?_
    rintro m' ⟨hkeeps', hchunks, hstays, htracked', hlive⟩
    refine ⟨hkeeps'.congr (fun id => ?_) (fun _ _ _ => rfl), ?_, ?_, ?_, ?_⟩
    · rw [map_cons, mem_cons, or_assoc]
    · exact ⟨hchunks.chunkVisibility.trans hinserts.chunks.chunkVisibility,
        hchunks.unloadingByChunk.trans hinserts.chunks.unloadingByChunk,
        hchunks.savePendingByChunk.trans hinserts.chunks.savePendingByChunk⟩
    · exact (hinserts.liveStays hid).trans hstays
    · rw [flatMap_cons]
      have htrans := htracked.trans htracked' (by simp)
      rwa [show m₁.startedBy = m.startedBy from funext hstarted] at htrans
    · intro e he
      rcases mem_cons.1 he with rfl | he
      · refine hstays _ _ ⟨entry', ?_, hsame⟩
        rw [hinserts.live, hsame.entity, update_self]
      · exact hlive e he

theorem Keeps.foldl_lifecycle (h : m.Keeps fromAabb known [] unticked fun _ => m.visibilityOf)
    (hlive : ∀ e ∈ entries, LiveWith m.liveById e.Same e.entity.id)
    (lifecycle : EntityLifecycleChanges) :
    ∃ lifecycle' ticks, entries.foldl (fun (lifecycle, m) entry =>
          let (changes, m) := m.applyEntityLifecycleAfterInsert entry.entity.id
          (lifecycle.extend changes, m)) (lifecycle, m) =
        (lifecycle', { m with tickList := ticks }) ∧
      lifecycle'.trackingStarted = lifecycle.trackingStarted ++ entries.flatMap m.startedBy ∧
      lifecycle'.trackingStopped = lifecycle.trackingStopped ∧
      { m with tickList := ticks }.Keeps fromAabb known []
        (fun id => unticked id ∧ id ∉ entries.map fun entry : EntityEntry Box => entry.entity.id)
        fun _ => m.visibilityOf := by
  induction entries generalizing m unticked lifecycle with
  | nil =>
    exact ⟨lifecycle, m.tickList, rfl, (append_nil _).symm, rfl,
      h.congr (fun _ => by simp) (fun _ _ _ => rfl)⟩
  | cons entry entries ih =>
    obtain ⟨entry', hentry', hsame⟩ := hlive entry mem_cons_self
    obtain ⟨changes, ticks, heq, hstarted, hstopped, hkeeps⟩ :=
      h.applyEntityLifecycleAfterInsert hentry' rfl
    rw [startedBy_same rfl hsame] at hstarted
    obtain ⟨lifecycle', ticks', hrest, hstarted', hstopped', hkeeps'⟩ :=
      ih (m := { m with tickList := ticks }) hkeeps
        (fun e he => hlive e (mem_cons_of_mem _ he)) (lifecycle.extend changes)
    refine ⟨lifecycle', ticks', ?_, ?_, ?_, hkeeps'.congr (fun id => ?_) (fun _ _ _ => rfl)⟩
    · rw [foldl_cons]
      dsimp only
      rw [heq]
      exact hrest
    · rw [hstarted', EntityLifecycleChanges.extend, hstarted, flatMap_cons, append_assoc]
      rfl
    · rw [hstopped', EntityLifecycleChanges.extend, hstopped, append_nil]
    · rw [map_cons, mem_cons, not_or, and_assoc]

theorem Exact.addLiveEntityTree (h : m.Exact fromAabb known)
    (hadd : Addable known view ownership entities) :
    Returns (Adds fromAabb known m entities ownership)
      (m.addLiveEntityTree fromAabb view entities ownership) := by
  unfold ManagerState.addLiveEntityTree
  split
  · exact rfl
  · rename_i entries hchecked
    obtain rfl := mapM_checkedLiveEntry hchecked
    have hids : (entities.map fun e => EntityEntry.new fromAabb view e ownership).map
        (·.entity.id) = entities.map SharedEntity.id := by
      rw [map_map]
      rfl
    obtain ⟨tree, htree, htreeNodup⟩ := checkTree_spec
      (entities.map fun e => EntityEntry.new fromAabb view e ownership) [] []
      (by rw [hids]; exact hadd.nodup) (fun _ _ => not_mem_nil)
    rw [htree]
    cases tree with
    | error error => exact rfl
    | ok _ =>
      obtain ⟨result, hresult, himp⟩ := validateLiveEntries_spec ownership false
        (entities.map fun e => .new fromAabb view e ownership) h (by
          intro entry hentry
          obtain ⟨e, he, rfl⟩ := mem_map.1 hentry
          exact hadd.fresh e he)
      refine Returns.bind (P := fun r : Except AddEntityError Unit => r = .ok ()) rfl ?_
      rintro _ rfl
      rw [hresult]
      cases result with
      | error error => exact rfl
      | ok _ =>
        have hkeeps := h.admit hadd (htreeNodup rfl).1
          fun e he => himp rfl _ (mem_map_of_mem he)
        refine hkeeps.foldlM_insertLiveEntry.bind ?_
        rintro m' ⟨hkeeps', hchunks, hstays, htracked, hlive⟩
        obtain ⟨lifecycle, ticks, heq, hstarted, hstopped, hexact⟩ :=
          hkeeps'.foldl_lifecycle hlive .none
        rw [heq]
        refine ⟨hexact.congr (fun id => by simp) (fun _ _ _ => rfl), hstopped, ⟨?_, ?_⟩, ?_,
          fun e o he => he.of_live hchunks.waiting (hstays _ _)⟩
        · rw [hstarted, show m'.startedBy = m.startedBy from funext fun e =>
            startedBy_same hchunks.chunkVisibility.symm ⟨rfl, rfl, rfl, rfl, rfl⟩]
          exact htracked
        · intro e he
          rw [hstarted] at he
          have he' := mem_append.1 he
          rcases he' with he | he
          · cases he
          · obtain ⟨entry, hentry, hmem⟩ := mem_flatMap.1 he
            obtain ⟨entry', hentry', hsame⟩ := hlive entry hentry
            unfold startedBy at hmem
            split at hmem
            · obtain rfl := mem_singleton.1 hmem
              exact ⟨entry', hentry', hsame.entity⟩
            · cases hmem
        · intro e he
          obtain ⟨entry, hentry, hsame⟩ := hlive _ (mem_map_of_mem he)
          exact ⟨entry, hentry, hsame.of_iff.2 ⟨rfl, rfl⟩⟩

end ManagerState

end Steel
