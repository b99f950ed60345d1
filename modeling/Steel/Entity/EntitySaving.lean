import Steel.Entity.EntityManagerRuns

/-! # Saving and unloading

An entity is held until it is let go: live, retained for a chunk, or waiting for the acknowledgement
of a save.
-/

namespace Steel

open ManagerState List Returns

variable {Box : Type} {fromAabb : Box → EntitySpatialCellBounds} {view : EntityView Box}
  {m m' : ManagerState Box} {known : EntityId → Prop} {pos : ChunkPos}
  {entry entry' : EntityEntry Box} {e : SharedEntity} {o : EntityOwnership}

namespace ManagerState

def holdings (m : ManagerState Box) (id : EntityId) : ℕ :=
  (if (m.liveById id).isSome then 1 else 0) + m.unloading.countP (·.entity.id = id) +
    m.savePending.countP (·.entity.id = id)

/-- The entity is held by exactly one of live, unloading and save-pending, and there once. -/
def HeldOnce (m : ManagerState Box) (e : SharedEntity) (o : EntityOwnership) : Prop :=
  m.Holds [] e o ∧ m.holdings e.id = 1

theorem Exact.heldOnce (h : m.Exact fromAabb known) (he : m.Holds [] e o) : m.HeldOnce e o := by
  refine ⟨he, ?_⟩
  have hcount : m.unloading.countP (·.entity.id = e.id) +
      m.savePending.countP (·.entity.id = e.id) =
      m.waiting.countP (·.entity.id = e.id) := countP_append.symm
  unfold holdings
  rw [Nat.add_assoc, hcount]
  rcases he with ⟨entry, hlive, -⟩ | ⟨entry, hentry, hof⟩
  · have hnone : m.waiting.countP (·.entity.id = e.id) = 0 := by
      rw [countP_eq_zero]
      intro entry' hentry' heq
      have hdead := h.apart.live_id entry' hentry'
      rw [of_decide_eq_true heq, hlive] at hdead
      cases hdead
    rw [hlive, hnone]
    rfl
  · have hdead := h.apart.live_id entry hentry
    have hone : (m.waiting.map (·.entity.id)).count e.id = 1 :=
      count_eq_one_of_mem h.apart.ids (mem_map.2 ⟨entry, hentry, by rw [hof.1]⟩)
    rw [List.count, countP_map] at hone
    rw [hof.1] at hdead
    rw [hdead]
    exact (Nat.zero_add _).trans hone

end ManagerState

def ManagerCall.LetsGo (call : ManagerCall Box) (m : ManagerState Box) (e : SharedEntity)
    (o : EntityOwnership) : Prop :=
  match call.operation with
  | .onChunkLoaded pos => ∃ entry ∈ (m.unloadingByChunk.lookup pos).getD [], entry.Of e o ∧
      call.view.isRemoved e.id = true ∧ entry.shouldSave call.view = false
  | .finalizeChunkUnload pos => ∃ entry ∈ (m.unloadingByChunk.lookup pos).getD [], entry.Of e o
  | .removeLiveEntity id reason => ∃ entry, m.liveById id = some entry ∧ entry.Of e o ∧
      (reason.shouldSave && entry.shouldSave call.view) = false
  | .onChunkSaved chunk savedEntityIds => e.id ∈ savedEntityIds ∧
      ∃ entry ∈ (m.savePendingByChunk.lookup chunk).getD [], entry.Of e o
  | _ => False

namespace ManagerState

theorem Holds.of_waiting (h : entry ∈ m.unloading ∨ entry ∈ m.savePending) (hof : entry.Of e o) :
    m.Holds [] e o := by
  refine .inr ⟨entry, ?_, hof⟩
  rw [nil_append, ManagerState.waiting, mem_append]
  exact h

theorem Holds.finalizeChunkUnload (he : m.Holds [] e o) :
    (m.finalizeChunkUnload pos).2.Holds [] e o ∨
      ∃ entry ∈ (m.unloadingByChunk.lookup pos).getD [], entry.Of e o := by
  rcases he with hlive | ⟨entry, hentry, hof⟩
  · exact .inl (.inl hlive)
  · rw [nil_append, ManagerState.waiting, mem_append, unloading,
      (contents_perm m.unloadingByChunk pos).mem_iff, mem_append, or_assoc] at hentry
    rcases hentry with hdropped | hkept
    · exact .inr ⟨entry, hdropped, hof⟩
    · exact .inl (.of_waiting hkept hof)

theorem Holds.onChunkSaved (savedEntityIds : List EntityId) (he : m.Holds [] e o) :
    (m.onChunkSaved pos savedEntityIds).Holds [] e o ∨ e.id ∈ savedEntityIds ∧
      ∃ entry ∈ (m.savePendingByChunk.lookup pos).getD [], entry.Of e o := by
  unfold ManagerState.onChunkSaved
  split
  · exact .inl he
  · cases hentries : m.savePendingByChunk.lookup pos with
    | none => exact .inl he
    | some entries =>
      rcases he with hlive | ⟨entry, hentry, hof⟩
      · dsimp only
        split
        · exact .inl (.inl hlive)
        · exact .inl (.inl hlive)
      · rw [nil_append, ManagerState.waiting, mem_append, savePending,
          (contents_perm m.savePendingByChunk pos).mem_iff, hentries, mem_append] at hentry
        have hkept : ∀ savePending : HashMap ChunkPos (List (EntityEntry Box)),
            entry ∈ m.unloading ∨ entry ∈ contents savePending →
            { m with savePendingByChunk := savePending }.Holds [] e o :=
          fun savePending hmem => .of_waiting hmem hof
        dsimp only
        by_cases hsaved : e.id ∈ savedEntityIds
        · rcases hentry with hunloading | hentry | hother
          · split
            · exact .inl (hkept _ (.inl hunloading))
            · exact .inl (hkept _ (.inl hunloading))
          · exact .inr ⟨hsaved, entry, hentry, hof⟩
          · split
            · exact .inl (hkept _ (.inr hother))
            · refine .inl (hkept _ (.inr ?_))
              exact mem_append_right _ hother
        · have hfiltered : entry ∈ entries →
              entry ∈ entries.filter (·.entity.id ∉ savedEntityIds) := fun hmem =>
            mem_filter.2 ⟨hmem, by simpa [hof.1] using hsaved⟩
          split
          · rename_i hempty
            rcases hentry with hunloading | hentry | hother
            · exact .inl (hkept _ (.inl hunloading))
            · rw [List.isEmpty_iff.1 hempty] at hfiltered
              exact absurd (hfiltered hentry) not_mem_nil
            · exact .inl (hkept _ (.inr hother))
          · refine .inl (hkept _ ?_)
            rw [contents_insert, mem_append]
            exact hentry.imp_right fun hmem => hmem.imp_left hfiltered

theorem Holds.removeLiveEntity (h : m.Exact fromAabb known) (id : EntityId)
    (reason : RemovalReason) (he : m.Holds [] e o) :
    (m.removeLiveEntity view id reason).2.Holds [] e o ∨ ∃ entry, m.liveById id = some entry ∧
      entry.Of e o ∧ (reason.shouldSave && entry.shouldSave view) = false := by
  unfold ManagerState.removeLiveEntity
  cases hlive : m.liveById id with
  | none =>
    have hnone : m.removeLiveEntry id = none := by
      unfold ManagerState.removeLiveEntry
      rw [hlive]
    rw [hnone]
    exact .inl he
  | some entry =>
    obtain ⟨m', heq, hremoves, -⟩ := h.removeLiveEntry hlive
    have hholds := hremoves.holds hlive he
    rw [heq]
    dsimp only
    split
    · refine .inl (hholds.imp_right fun ⟨entry', hentry', hof⟩ => ⟨entry', ?_, hof⟩)
      exact ((contents_append m'.savePendingByChunk entry.chunk [entry]).append_left _).trans
        (perm_append_comm_assoc _ _ _) |>.mem_iff.2 hentry'
    · rename_i hsave
      rcases hholds with hheld | ⟨entry', hentry', hof⟩
      · exact .inl (.inl hheld)
      · rcases mem_cons.1 hentry' with rfl | hentry'
        · exact .inr ⟨entry', rfl, hof, Bool.eq_false_of_not_eq_true hsave⟩
        · exact .inl (.inr ⟨entry', hentry', hof⟩)

end ManagerState

def ManagerOperation.Adds (e : SharedEntity) (o : EntityOwnership) : ManagerOperation → Prop
  | addLiveEntity entity ownership => e = entity ∧ o = ownership
  | addLiveEntityTree entities ownership => e ∈ entities ∧ o = ownership
  | _ => False

namespace ManagerHistory

variable {history history' : ManagerHistory Box} {call : ManagerCall Box}

theorem holds_afterAdding {entities : List SharedEntity} {ownership : EntityOwnership}
    {state : Except AddEntityError EntityLifecycleChanges × ManagerState Box}
    (hadds : ManagerState.Adds fromAabb (· ∈ history.known) history.manager entities ownership
      state)
    (hfresh : ∀ e ∈ entities, e.id ∉ history.known) :
    (∀ e o, history.manager.Holds [] e o →
      (history.afterAdding entities state).manager.Holds [] e o) ∧
      ∀ e ∈ entities, e.id ∈ (history.afterAdding entities state).known →
        (history.afterAdding entities state).manager.Holds [] e ownership := by
  obtain ⟨result, m⟩ := state
  cases result with
  | error error =>
    obtain rfl : m = history.manager := hadds
    exact ⟨fun e o he => he, fun e he hknown => absurd hknown (hfresh e he)⟩
  | ok lifecycle =>
    obtain ⟨-, -, -, hlive, hholds⟩ := hadds
    exact ⟨hholds, fun e he _ => .inl (hlive e he)⟩

theorem perform_holds (h : history.Exact fromAabb) (hproper : call.Proper history.known)
    (hrange : call.InPackedRange) :
    Returns (fun history' : ManagerHistory Box =>
        (∀ e o, history.manager.Holds [] e o →
          history'.manager.Holds [] e o ∨ call.LetsGo history.manager e o) ∧
        ∀ e o, call.operation.Adds e o → e.id ∈ history'.known → history'.manager.Holds [] e o)
      (history.perform fromAabb call) := by
  obtain ⟨view, operation⟩ := call
  obtain ⟨hacyclic, hfresh⟩ := hproper
  cases operation with
  | onChunkLoaded pos =>
    refine map (h.onChunkLoaded.mono ?_)
    rintro state ⟨-, -, m₁, hholds, hrestores⟩
    exact ⟨fun e o he => hrestores.holds e o (hholds e o he), nofun⟩
  | updateChunkVisibility pos visibility =>
    exact ⟨fun e o he => .inl ((h.updateChunkVisibility hrange visibility).2.2 e o he), nofun⟩
  | beginChunkUnload pos =>
    refine map ((h.beginChunkUnload hrange).mono ?_)
    rintro state ⟨-, -, hholds⟩
    exact ⟨fun e o he => .inl (hholds e o he), nofun⟩
  | finalizeChunkUnload pos => exact ⟨fun e o he => he.finalizeChunkUnload, nofun⟩
  | addLiveEntity entity ownership =>
    have hadd : Addable (· ∈ history.known) view ownership [entity] :=
      ⟨forall_mem_singleton.2 hfresh.1, nodup_singleton _,
        forall_mem_singleton.2 hrange, forall_mem_singleton.2 hfresh.2⟩
    refine map ((h.addLiveEntity hadd).mono fun state hadds => ?_)
    obtain ⟨hholds, hadded⟩ := holds_afterAdding hadds hadd.fresh
    refine ⟨fun e o he => .inl (hholds e o he), ?_⟩
    rintro e o ⟨rfl, rfl⟩ hknown
    exact hadded e mem_cons_self hknown
  | addLiveEntityTree entities ownership =>
    have hadd : Addable (· ∈ history.known) view ownership entities :=
      ⟨fun e he => (hfresh.1 e he).1, hfresh.2, hrange, fun e he => (hfresh.1 e he).2⟩
    refine map ((h.addLiveEntityTree hadd).mono fun state hadds => ?_)
    obtain ⟨hholds, hadded⟩ := holds_afterAdding hadds hadd.fresh
    refine ⟨fun e o he => .inl (hholds e o he), ?_⟩
    rintro e o ⟨he, rfl⟩ hknown
    exact hadded e he hknown
  | removeLiveEntity id reason => exact ⟨fun e o he => he.removeLiveEntity h id reason, nofun⟩
  | commitMove id newSection =>
    refine map ((h.commitMove hacyclic id hrange).mono ?_)
    rintro ⟨result, m⟩ hcommits
    cases result with
    | error error =>
      obtain rfl : m = history.manager := hcommits
      exact ⟨fun e o he => .inl he, nofun⟩
    | ok update => exact ⟨fun e o he => .inl (hcommits.2.2 e o he), nofun⟩
  | commitBoundingBoxChange id =>
    obtain ⟨m', heq, -, -, hholds⟩ := h.commitBoundingBoxChange view id
    unfold perform
    dsimp only
    rw [heq]
    exact ⟨fun e o he => .inl (hholds e o he), nofun⟩
  | onChunkSaved chunk savedEntityIds =>
    exact ⟨fun e o he => he.onChunkSaved savedEntityIds, nofun⟩

def Keeping (e : SharedEntity) (o : EntityOwnership)
    (state : Except ManagerPanic (ManagerHistory Box)) (call : ManagerCall Box) : Prop :=
  ∀ history, state = .ok history → ¬ call.LetsGo history.manager e o

theorem run_holds {calls : List (ManagerCall Box)} (hguard : Guarded (step fromAabb)
      (Guards fun known call => call.Proper known ∧ call.InPackedRange) (.ok history) calls)
    (h : history.Exact fromAabb) (he : history.manager.Holds [] e o)
    (hkeeping : Guarded (step fromAabb) (Keeping e o) (.ok history) calls) :
    Returns (fun history' => history'.Exact fromAabb ∧ history'.manager.Holds [] e o)
      (runSteps (step fromAabb) (.ok history) calls) := by
  refine (hguard.and hkeeping).invariant
    (I := Returns fun history' => history'.Exact fromAabb ∧ history'.manager.Holds [] e o) ?_
    ⟨h, he⟩
  rintro state call hstate ⟨hcall, hkept⟩
  cases state with
  | error panic => exact hstate
  | ok history' =>
    obtain ⟨hproper, hrange⟩ := hcall history' rfl
    have hexact := perform_exact hstate.1 hproper hrange
    have hholds := perform_holds hstate.1 hproper hrange
    have hstep : step fromAabb (.ok history') call = history'.perform fromAabb call := rfl
    rw [hstep]
    cases hperform : history'.perform fromAabb call with
    | error panic =>
      rw [hperform] at hexact
      exact hexact
    | ok history'' =>
      rw [hperform] at hexact hholds
      exact ⟨hexact, (hholds.1 e o hstate.2).resolve_right (hkept history' rfl)⟩

end ManagerHistory

namespace ManagerState

/-- The entries that a chunk may save, in the order in which it looks at them. -/
def entriesForChunk (m : ManagerState Box) (chunk : ChunkPos) : List (EntityEntry Box) :=
  (m.entityIdsInChunkOrder chunk).filterMap m.liveById ++
    (m.unloadingByChunk.lookup chunk).getD [] ++ (m.savePendingByChunk.lookup chunk).getD []

theorem pushSaveableEntities_eq {entries : List (EntityEntry Box)} {seenIds : List EntityId}
    {seenUuids : List Uuid} (hids : (entries.map (·.entity.id)).Nodup)
    (huuids : (entries.map (·.uuid)).Nodup)
    (hseenIds : ∀ entry ∈ entries, entry.entity.id ∉ seenIds)
    (hseenUuids : ∀ entry ∈ entries, entry.uuid ∉ seenUuids) :
    pushSaveableEntities view entries seenIds seenUuids =
      .ok ((entries.filter (·.shouldSave view)).map (·.entity)) := by
  induction entries generalizing seenIds seenUuids with
  | nil => rfl
  | cons entry entries ih =>
    rw [map_cons, nodup_cons] at hids huuids
    have hid := hseenIds entry mem_cons_self
    have hids' : ∀ entry' ∈ entries, entry'.entity.id ≠ entry.entity.id := fun entry' hentry' heq =>
      hids.1 (mem_map.2 ⟨entry', hentry', heq⟩)
    have huuids' : ∀ entry' ∈ entries, entry'.uuid ≠ entry.uuid := fun entry' hentry' heq =>
      huuids.1 (mem_map.2 ⟨entry', hentry', heq⟩)
    unfold pushSaveableEntities
    by_cases hsave : entry.shouldSave view = true
    · rw [if_neg (by simp [hsave, hid]), if_neg (hseenUuids entry mem_cons_self), ih hids.2 huuids.2
          (fun entry' hentry' => by
            simp [hids' entry' hentry', hseenIds entry' (mem_cons_of_mem _ hentry')])
          (fun entry' hentry' => by
            simp [huuids' entry' hentry', hseenUuids entry' (mem_cons_of_mem _ hentry')]),
        filter_cons_of_pos hsave]
      rfl
    · rw [if_pos (by simp [hsave]), filter_cons_of_neg hsave]
      exact ih hids.2 huuids.2 (fun entry' hentry' => hseenIds entry' (mem_cons_of_mem _ hentry'))
        (fun entry' hentry' => hseenUuids entry' (mem_cons_of_mem _ hentry'))

theorem perm_waiting (m : ManagerState Box) (chunk : ChunkPos) :
    m.waiting.Perm (((m.unloadingByChunk.lookup chunk).getD [] ++
      (m.savePendingByChunk.lookup chunk).getD []) ++
      (contents (m.unloadingByChunk.erase chunk) ++
      contents (m.savePendingByChunk.erase chunk))) := by
  refine ((contents_perm m.unloadingByChunk chunk).append
    (contents_perm m.savePendingByChunk chunk)).trans ?_
  rw [append_assoc, append_assoc]
  exact (perm_append_comm_assoc _ _ _).append_left _

theorem mem_liveForChunk (h : m.Indexed fromAabb)
    (hentry : entry ∈ (m.entityIdsInChunkOrder pos).filterMap m.liveById) :
    m.liveById entry.entity.id = some entry := by
  obtain ⟨id, -, hlive⟩ := mem_filterMap.1 hentry
  rw [h.id id entry hlive]
  exact hlive

theorem nodup_liveForChunk (h : m.Indexed fromAabb) (chunk : ChunkPos) :
    ((m.entityIdsInChunkOrder chunk).filterMap m.liveById).Nodup := by
  refine (nodup_entityIdsInChunkOrder h chunk).filterMap ?_
  intro id id' entry hlive hlive'
  exact (h.id id entry hlive).symm.trans (h.id id' entry hlive')

theorem Exact.nodup_entriesForChunk (h : m.Exact fromAabb known) (chunk : ChunkPos) :
    ((m.entriesForChunk chunk).map (·.entity.id)).Nodup ∧
      ((m.entriesForChunk chunk).map (·.uuid)).Nodup := by
  have hapart := (h.apart.perm (perm_waiting m chunk).symm).sublist (sublist_append_left _ _)
  have hnodup := nodup_liveForChunk h.indexed chunk
  unfold entriesForChunk
  rw [append_assoc]
  generalize (m.unloadingByChunk.lookup chunk).getD [] ++
    (m.savePendingByChunk.lookup chunk).getD [] = entries at hapart ⊢
  rw [map_append, map_append, nodup_append, nodup_append]
  refine ⟨⟨hnodup.map_on ?_, hapart.ids, ?_⟩, hnodup.map_on ?_, hapart.uuids, ?_⟩
  · intro entry hentry entry' hentry' heq
    have hlive := mem_liveForChunk h.indexed hentry
    rw [heq, mem_liveForChunk h.indexed hentry'] at hlive
    exact (Option.some.inj hlive).symm
  · rintro id hid id' hid' rfl
    obtain ⟨entry, hentry, rfl⟩ := mem_map.1 hid
    obtain ⟨entry', hentry', heq⟩ := mem_map.1 hid'
    have hdead := hapart.live_id entry' hentry'
    rw [heq, mem_liveForChunk h.indexed hentry] at hdead
    cases hdead
  · intro entry hentry entry' hentry' heq
    have hlive := mem_liveForChunk h.indexed hentry
    have hlive' := mem_liveForChunk h.indexed hentry'
    have hid := h.indexed.uuid_inj hlive ⟨entry', hlive', heq⟩
    rw [hid, hlive] at hlive'
    exact Option.some.inj hlive'
  · rintro uuid huuid uuid' huuid' rfl
    obtain ⟨entry, hentry, rfl⟩ := mem_map.1 huuid
    obtain ⟨entry', hentry', heq⟩ := mem_map.1 huuid'
    exact hapart.live_uuid entry' hentry' entry.entity.id
      ⟨entry, mem_liveForChunk h.indexed hentry, heq⟩

theorem Exact.getSaveableEntitiesForChunk (h : m.Exact fromAabb known) (chunk : ChunkPos) :
    m.getSaveableEntitiesForChunk view chunk =
      .ok (((m.entriesForChunk chunk).filter (·.shouldSave view)).map (·.entity)) := by
  obtain ⟨hids, huuids⟩ := h.nodup_entriesForChunk chunk
  exact pushSaveableEntities_eq hids huuids (fun _ _ => not_mem_nil) fun _ _ => not_mem_nil

/-- The chunk where the entity is, or for which it is retained or waits. -/
def KeptFor (m : ManagerState Box) (e : SharedEntity) (o : EntityOwnership) (chunk : ChunkPos) :
    Prop :=
  LiveWith m.liveById (fun entry => entry.Of e o ∧ entry.chunk = chunk) e.id ∨
    ∃ entry ∈ (m.unloadingByChunk.lookup chunk).getD [] ++
      (m.savePendingByChunk.lookup chunk).getD [], entry.Of e o

theorem Holds.exists_keptFor (he : m.Holds [] e o) : ∃ chunk, m.KeptFor e o chunk := by
  rcases he with ⟨entry, hlive, hof⟩ | ⟨entry, hentry, hof⟩
  · exact ⟨entry.chunk, .inl ⟨entry, hlive, hof, rfl⟩⟩
  · rw [nil_append] at hentry
    rcases mem_append.1 hentry with hunloading | hpending
    · obtain ⟨chunk, hmem⟩ := mem_contents.1 hunloading
      exact ⟨chunk, .inr ⟨entry, mem_append_left _ hmem, hof⟩⟩
    · obtain ⟨chunk, hmem⟩ := mem_contents.1 hpending
      exact ⟨chunk, .inr ⟨entry, mem_append_right _ hmem, hof⟩⟩

theorem Exact.keptFor_unique (h : m.Exact fromAabb known) {chunk chunk' : ChunkPos}
    (hkept : m.KeptFor e o chunk) (hkept' : m.KeptFor e o chunk') : chunk = chunk' := by
  have hwaiting : ∀ {chunk entry}, entry ∈ (m.unloadingByChunk.lookup chunk).getD [] ++
      (m.savePendingByChunk.lookup chunk).getD [] → entry ∈ m.waiting := fun {chunk entry} hentry =>
    (perm_waiting m chunk).mem_iff.2 (mem_append_left _ hentry)
  have hdead : ∀ {chunk entry}, entry ∈ (m.unloadingByChunk.lookup chunk).getD [] ++
      (m.savePendingByChunk.lookup chunk).getD [] → entry.Of e o → m.liveById e.id = none := by
    intro chunk entry hentry hof
    have hnone := h.apart.live_id entry (hwaiting hentry)
    rwa [hof.1] at hnone
  rcases hkept with ⟨entry, hlive, hof, rfl⟩ | ⟨entry, hentry, hof⟩
  · rcases hkept' with ⟨entry', hlive', -, rfl⟩ | ⟨entry', hentry', hof'⟩
    · rw [Option.some.inj (hlive.symm.trans hlive')]
    · exact absurd (hlive.symm.trans (hdead hentry' hof')) nofun
  · rcases hkept' with ⟨entry', hlive', -, rfl⟩ | ⟨entry', hentry', hof'⟩
    · exact absurd (hlive'.symm.trans (hdead hentry hof)) nofun
    · by_contra hne
      have hids := (((perm_waiting m chunk).map (·.entity.id)).nodup_iff).1 h.apart.ids
      rw [map_append, nodup_append] at hids
      refine hids.2.2 e.id (mem_map.2 ⟨entry, hentry, by rw [hof.1]⟩) e.id
        (mem_map.2 ⟨entry', ?_, by rw [hof'.1]⟩) rfl
      rw [mem_append] at hentry' ⊢
      refine hentry'.imp (fun hmem => ?_) fun hmem => ?_
      · exact mem_contents.2 ⟨chunk', (AList.lookup_erase_ne (Ne.symm hne)).symm ▸ hmem⟩
      · exact mem_contents.2 ⟨chunk', (AList.lookup_erase_ne (Ne.symm hne)).symm ▸ hmem⟩

end ManagerState

/-- The entity is no passenger, does not carry exactly one player, and if it was removed then with
its chunk. -/
def SharedEntity.isSaveable (view : EntityView Box) (e : SharedEntity) : Bool :=
  (!view.isRemoved e.id || (view.removalReason e.id).any RemovalReason.shouldSave) &&
    !view.isPassenger e.id && !view.hasExactlyOnePlayerPassenger e.id && e.canSerialize

theorem EntityEntry.Of.shouldSave (h : entry.Of e .managerOwned) :
    entry.shouldSave view = e.isSaveable view := by
  rw [EntityEntry.shouldSave, h.1, h.2]
  simp [SharedEntity.isSaveable]

theorem EntityEntry.ownership_of_shouldSave (h : entry.shouldSave view = true) :
    entry.ownership = .managerOwned := by
  simp only [EntityEntry.shouldSave, Bool.and_eq_true, decide_eq_true_iff] at h
  exact h.1.1.1.1

namespace ManagerState

/-- The entity is returned for the chunk once, and not for other ones. -/
structure SavedFor (view : EntityView Box) (m : ManagerState Box) (e : SharedEntity)
    (chunk : ChunkPos) : Prop where
  here : ∃ saved, m.getSaveableEntitiesForChunk view chunk = .ok saved ∧ saved.count e = 1
  elsewhere : ∀ chunk', chunk'.InPackedRange → chunk' ≠ chunk →
    ∃ saved, m.getSaveableEntitiesForChunk view chunk' = .ok saved ∧ e ∉ saved

theorem Exact.keptFor_of_mem (h : m.Exact fromAabb known) {chunk : ChunkPos}
    (hchunk : chunk.InPackedRange)
    (he : e ∈ ((m.entriesForChunk chunk).filter (·.shouldSave view)).map (·.entity)) :
    m.KeptFor e .managerOwned chunk := by
  obtain ⟨entry, hentry, rfl⟩ := mem_map.1 he
  obtain ⟨hentry, hsave⟩ := mem_filter.1 hentry
  have hof : entry.Of entry.entity .managerOwned := ⟨rfl, EntityEntry.ownership_of_shouldSave hsave⟩
  unfold entriesForChunk at hentry
  rw [append_assoc, mem_append] at hentry
  rcases hentry with hlive | hwaits
  · obtain ⟨id, hid, hlive⟩ := mem_filterMap.1 hlive
    obtain ⟨entry', hlive', hin⟩ := (mem_entityIdsInChunkOrder id h.indexed h.lawful hchunk).1 hid
    obtain rfl := Option.some.inj (hlive.symm.trans hlive')
    have hself := h.indexed.id id entry hlive
    exact .inl ⟨entry, hself ▸ hlive, hof, hin⟩
  · exact .inr ⟨entry, hwaits, hof⟩

theorem Exact.exists_savedFor (h : m.Exact fromAabb known) (he : m.Holds [] e .managerOwned)
    (hsaveable : e.isSaveable view = true) :
    ∃ chunk, m.KeptFor e .managerOwned chunk ∧ m.SavedFor view e chunk := by
  obtain ⟨chunk, hkept⟩ := he.exists_keptFor
  refine ⟨chunk, hkept, ⟨_, h.getSaveableEntitiesForChunk chunk, ?_⟩, fun chunk' hrange hne =>
    ⟨_, h.getSaveableEntitiesForChunk chunk', fun hmem => hne ?_⟩⟩
  · refine count_eq_one_of_mem ?_ ?_
    · have hids := (h.nodup_entriesForChunk chunk).1.sublist
        ((filter_sublist (p := (·.shouldSave view))).map _)
      refine Nodup.of_map SharedEntity.id ?_
      rwa [map_map]
    · have hmem : ∃ entry ∈ m.entriesForChunk chunk, entry.Of e .managerOwned := by
        unfold entriesForChunk
        rw [append_assoc]
        rcases hkept with ⟨entry, hlive, hof, hin⟩ | ⟨entry, hentry, hof⟩
        · refine ⟨entry, mem_append_left _ (mem_filterMap.2 ⟨e.id, ?_, hlive⟩), hof⟩
          have hrange := (h.lawful e.id entry hlive).inPackedRange
          rw [hin] at hrange
          exact (mem_entityIdsInChunkOrder e.id h.indexed h.lawful hrange).2 ⟨entry, hlive, hin⟩
        · exact ⟨entry, mem_append_right _ hentry, hof⟩
      obtain ⟨entry, hentry, hof⟩ := hmem
      exact mem_map.2 ⟨entry, mem_filter.2 ⟨hentry, hof.shouldSave.trans hsaveable⟩, hof.1⟩
  · exact h.keptFor_unique (h.keptFor_of_mem hrange hmem) hkept

end ManagerState

namespace ManagerHistory

/-- After a call of a run: what it added is held once as long as no call lets it go; what should be
saved is returned for the chunk that keeps it; an unload drops nothing that should be saved and was
not returned; and a chunk that is loaded restores its retained entities. -/
theorem saving_run {before after : List (ManagerCall Box)} {call : ManagerCall Box}
    {history : ManagerHistory Box}
    (hguard : Guarded (step fromAabb)
      (Guards fun known call => call.Proper known ∧ call.InPackedRange) (.ok .new)
      (before ++ call :: after))
    (hrun : runSteps (step fromAabb) (.ok .new) (before ++ [call]) = .ok history) :
    (∀ e o, call.operation.Adds e o → e.id ∈ history.known →
        Guarded (step fromAabb) (Keeping e o) (.ok history) after →
        Returns (fun later => later.manager.HeldOnce e o)
          (runSteps (step fromAabb) (.ok history) after)) ∧
      (∀ view e, history.manager.Holds [] e .managerOwned → e.isSaveable view = true →
        ∃ chunk, history.manager.KeptFor e .managerOwned chunk ∧
          history.manager.SavedFor view e chunk) ∧
      (∀ view chunk, ∃ saved, history.manager.getSaveableEntitiesForChunk view chunk = .ok saved ∧
        ∀ entry ∈ (history.manager.finalizeChunkUnload chunk).1,
          entry.shouldSave view = true → entry.entity ∈ saved) ∧
      ∀ view chunk, Returns (fun state =>
          ∀ entry ∈ (history.manager.unloadingByChunk.lookup chunk).getD [],
            view.isRemoved entry.entity.id = false →
              LiveWith state.2.liveById entry.Same entry.entity.id ∧
                entry.entity ∈ state.1.restored)
        (history.manager.onChunkLoaded fromAabb view chunk) := by
  have hnew : Returns (fun history => history.Exact fromAabb)
      (.ok .new : Except ManagerPanic (ManagerHistory Box)) := exact_new.mono _ fun _ => False.elim
  obtain ⟨hbefore, hcall, hafter⟩ := guarded_append.1 hguard
  have hexact := runs_exact hbefore hnew
  rw [runSteps_append] at hrun
  cases hstart : runSteps (step fromAabb) (.ok .new) before with
  | error panic =>
    rw [hstart] at hrun
    cases hrun
  | ok start =>
    rw [hstart] at hrun hexact hcall hafter
    obtain ⟨hproper, hrange⟩ := hcall start rfl
    have hperform : start.perform fromAabb call = .ok history := hrun
    rw [show step fromAabb (.ok start) call = .ok history from hperform] at hafter
    have hexact' := perform_exact hexact hproper hrange
    have hholds := perform_holds hexact hproper hrange
    rw [hperform] at hexact' hholds
    refine ⟨fun e o hadds hknown hkeeping => ?_, fun view e he hsaveable =>
      hexact'.exists_savedFor he hsaveable, fun view chunk => ?_, fun view chunk => ?_⟩
    · refine (run_holds hafter hexact' (hholds.2 e o hadds hknown) hkeeping).mono ?_
      exact fun later hlater => hlater.1.heldOnce hlater.2
    · refine ⟨_, hexact'.getSaveableEntitiesForChunk chunk, fun entry hentry hsave => ?_⟩
      refine mem_map_of_mem (mem_filter.2 ⟨?_, hsave⟩)
      exact mem_append_left _ (mem_append_right _ hentry)
    · refine hexact'.onChunkLoaded.mono ?_
      rintro state ⟨-, -, m₁, -, hrestores⟩
      exact hrestores.live

theorem heldOnce_lifeOfEntity :
    ∃ history, runSteps (step id) (.ok .new) lifeOfEntity = .ok history ∧
      history.manager.HeldOnce restingEntity .managerOwned := by
  obtain ⟨history, hrun⟩ : ∃ history, runSteps (step id) (.ok .new)
      ([] ++ [⟨restingView ⟨0, 0, 0⟩, .addLiveEntityTree [restingEntity] .managerOwned⟩]) =
        .ok history := ⟨_, rfl⟩
  have hknown : (runSteps (step id) (.ok .new)
      ([] ++ [⟨restingView ⟨0, 0, 0⟩,
        .addLiveEntityTree [restingEntity] .managerOwned⟩])).toOption.map
        (·.known) = some {restingEntity.id} := by decide +kernel
  rw [hrun] at hknown
  have hsaving := (@saving_run _ id [] lifeOfEntity.tail _ history guarded_lifeOfEntity hrun).1
    restingEntity .managerOwned ⟨mem_cons_self, rfl⟩
    (by rw [show history.known = _ from Option.some.inj hknown]; exact Finset.mem_singleton_self _)
    ⟨fun _ _ h => h, fun _ _ h => (Bool.false_ne_true h.choose_spec.2.2.1), fun _ _ h => h,
      fun _ _ h => h, trivial⟩
  have hlife : runSteps (step id) (.ok .new) lifeOfEntity =
      runSteps (step id) (.ok history) lifeOfEntity.tail :=
    congrArg (fun state => runSteps (step id) state lifeOfEntity.tail) hrun
  have hok : (runSteps (step id) (.ok .new) lifeOfEntity).toOption.isSome = true := by
    decide +kernel
  rw [hlife] at hok ⊢
  cases hend : runSteps (step id) (.ok history) lifeOfEntity.tail with
  | error panic =>
    rw [hend] at hok
    cases hok
  | ok later =>
    rw [hend] at hsaving
    exact ⟨later, rfl, hsaving⟩

def ridingEntity : SharedEntity where
  id := 2
  uuid := 8
  isAlwaysTicking := false
  canSerialize := true
  clientTrackingRange := 10

def ridingView : EntityView EntitySpatialCellBounds :=
  { restingView ⟨0, 0, 0⟩ with
    vehicle := Function.update (fun _ => none) 2 (some 1)
    passengers := Function.update (fun _ => []) 1 [2] }

def removedRider : List (ManagerCall EntitySpatialCellBounds) :=
  [⟨ridingView, .addLiveEntityTree [restingEntity, ridingEntity] .managerOwned⟩,
    ⟨ridingView, .removeLiveEntity 2 .unloadedToChunk⟩]

theorem not_held_removedRider :
    Guarded (step id) (Guards fun known call => call.Proper known ∧ call.InPackedRange) (.ok .new)
        removedRider ∧
      ridingEntity.canSerialize = true ∧
      (runSteps (step id) (.ok .new) removedRider).toOption.map
        (fun history => (decide (ridingEntity.id ∈ history.known), history.manager.holdings 2)) =
          some (true, 0) := by
  have hacyclic : Acyclic ridingView.vehicle := by
    refine acyclic_none.link fun hleads => ?_
    rcases hleads.cases_parent with heq | ⟨b, hb, -⟩
    · exact absurd heq (by decide)
    · cases hb
  refine ⟨⟨fun history hnew => ?_, fun _ _ => ⟨⟨hacyclic, trivial⟩, trivial⟩, trivial⟩, rfl, ?_⟩
  · obtain rfl := Except.ok.inj hnew
    refine ⟨⟨hacyclic, ?_, by decide⟩, ?_⟩
    · intro e he
      refine ⟨Finset.notMem_empty _, fun halways => ?_⟩
      rcases mem_pair.1 he with rfl | rfl
      · cases halways
      · cases halways
    · intro e _
      exact (by decide : ChunkPos.InPackedRange ⟨0, 0⟩)
  · decide +kernel

end ManagerHistory

end Steel
