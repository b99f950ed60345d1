import Steel.Entity.WorldEntityManager
import Steel.Lib.Sorted

/-! # The indexes of the entity manager

Every index of the live entities says which of them have some property of their entries.
-/

namespace Steel

open ManagerState List Function OrderedEntityIds Option AList

variable {Box : Type} {fromAabb : Box → EntitySpatialCellBounds} {view : EntityView Box}

theorem EntitySpatialCellBounds.nodup_cells (bounds : EntitySpatialCellBounds) :
    bounds.cells.Nodup := by
  have hrange : ∀ a b : ℤ, (rangeInclusive a b).Nodup := by
    intro a b
    refine List.Nodup.map ?_ nodup_range
    intro i j hij
    simpa using hij
  refine nodup_flatMap.2 ⟨fun x _ => nodup_flatMap.2 ⟨fun y _ => ?_, ?_⟩, ?_⟩
  · refine (hrange _ _).map ?_
    intro z z' hz
    simpa using hz
  · refine (hrange _ _).imp fun {y y'} hne => ?_
    intro cell hcell hcell'
    obtain ⟨z, -, rfl⟩ := mem_map.1 hcell
    obtain ⟨z', -, heq⟩ := mem_map.1 hcell'
    exact hne (congrArg EntitySpatialCell.y heq).symm
  · refine (hrange _ _).imp fun {x x'} hne => ?_
    intro cell hcell hcell'
    obtain ⟨y, -, hy⟩ := mem_flatMap.1 hcell
    obtain ⟨z, -, rfl⟩ := mem_map.1 hy
    obtain ⟨y', -, hy'⟩ := mem_flatMap.1 hcell'
    obtain ⟨z', -, heq⟩ := mem_map.1 hy'
    exact hne (congrArg EntitySpatialCell.x heq).symm

def LiveWith (live : EntityId → Option (EntityEntry Box)) (P : EntityEntry Box → Prop)
    (id : EntityId) : Prop :=
  ∃ entry, live id = some entry ∧ P entry

section LiveWith

variable {live : EntityId → Option (EntityEntry Box)} {P : EntityEntry Box → Prop}
  {entry e : EntityEntry Box} {a id : EntityId}

theorem liveWith_update_some :
    LiveWith (update live id (some entry)) P a ↔
      (a ≠ id ∧ LiveWith live P a) ∨ a = id ∧ P entry := by
  by_cases ha : a = id
  · subst ha
    simp [LiveWith, update_self]
  · simp [LiveWith, ha]

theorem liveWith_update_none :
    LiveWith (update live id none) P a ↔ LiveWith live P a ∧ a ≠ id := by
  by_cases ha : a = id
  · subst ha
    simp [LiveWith, update_self]
  · simp [LiveWith, ha]

theorem LiveWith.ne_of_none (h : LiveWith live P a) (hnone : live id = none) : a ≠ id := by
  rintro rfl
  obtain ⟨entry, hentry, -⟩ := h
  exact absurd (hnone.symm.trans hentry) nofun

theorem liveWith_of_some (hlive : live id = some entry) : LiveWith live P id ↔ P entry := by
  constructor
  · rintro ⟨entry', hentry', hP⟩
    exact Option.some.inj (hlive.symm.trans hentry') ▸ hP
  · exact fun hP => ⟨entry, hlive, hP⟩

theorem liveWith_removed (hlive : live id = some entry) :
    LiveWith live P a ∧ ¬ (a = id ∧ P entry) ↔ LiveWith (update live id none) P a := by
  rw [liveWith_update_none]
  refine and_congr_right fun hP => not_congr (iff_self_and.2 ?_).symm
  rintro rfl
  exact (liveWith_of_some hlive).1 hP

theorem liveWith_inserted (hnone : live id = none) :
    LiveWith live P a ∨ a = id ∧ P entry ↔
      LiveWith (update live id (some entry)) P a := by
  rw [liveWith_update_some]
  exact or_congr (iff_and_self.2 fun hP => hP.ne_of_none hnone) Iff.rfl

variable {entry' : EntityEntry Box}

theorem liveWith_replaced (hlive : live id = some entry) :
    (LiveWith live P a ∧ ¬ (a = id ∧ P entry)) ∨ a = id ∧ P entry' ↔
      LiveWith (update live id (some entry')) P a := by
  rw [liveWith_removed hlive, liveWith_inserted (update_self ..), update_idem]

theorem liveWith_replaced_same (hlive : live id = some entry) (hP : P entry' ↔ P entry) :
    LiveWith (update live id (some entry')) P a ↔ LiveWith live P a := by
  rw [liveWith_update_some]
  by_cases ha : a = id
  · subst ha
    simp [liveWith_of_some hlive, hP]
  · simp [ha]

theorem update_some_cases (h : update live id (some entry) a = some e) :
    a = id ∧ e = entry ∨ a ≠ id ∧ live a = some e := by
  by_cases ha : a = id
  · subst ha
    rw [update_self] at h
    exact .inl ⟨rfl, (Option.some.inj h).symm⟩
  · rw [update_of_ne ha] at h
    exact .inr ⟨ha, h⟩

theorem update_none_cases (h : update live id none a = some e) :
    a ≠ id ∧ live a = some e := by
  by_cases ha : a = id
  · subst ha
    rw [update_self] at h
    cases h
  · rw [update_of_ne ha] at h
    exact ⟨ha, h⟩

end LiveWith

namespace OrderedEntityIds

variable {ids : List EntityId} {P : EntityId → Prop} {id : EntityId}

theorem insert_of_not_mem (h : id ∉ ids) : insert ids id = ids ++ [id] := if_neg h

theorem insert_perm (h : id ∉ ids) : (insert ids id).Perm (id :: ids) := by
  rw [insert_of_not_mem h]
  exact perm_append_singleton id ids

theorem enumerates_insert (h : Enumerates ids P) :
    Enumerates (insert ids id) fun a => P a ∨ a = id := by
  by_cases hmem : id ∈ ids
  · rw [insert, if_pos hmem]
    refine h.congr fun a => (or_iff_left_of_imp ?_).symm
    rintro rfl
    exact (h.mem a).1 hmem
  · rw [insert_of_not_mem hmem]
    exact h.append fun hP => hmem ((h.mem id).2 hP)

theorem enumerates_retarget {old new : Bool} (h : Enumerates ids P) (hid : P id ↔ old = true) :
    Enumerates
      (if old && !new then ids.erase id
        else if !old && new then insert ids id
        else ids)
      fun a => (a ≠ id ∧ P a) ∨ a = id ∧ new = true := by
  cases old with
  | true =>
    cases new with
    | true =>
      refine h.congr fun a => ?_
      by_cases ha : a = id
      · simp [ha, hid]
      · simp [ha]
    | false => exact (h.erase id).congr fun a => by simp [and_comm]
  | false =>
    have hnot : ¬ P id := fun hP => Bool.false_ne_true (hid.1 hP)
    have hne : ∀ a, P a → a ≠ id := by
      rintro a hP rfl
      exact hnot hP
    cases new with
    | true =>
      refine (enumerates_insert h).congr fun a => ?_
      simpa using or_congr (iff_and_self.2 (hne a)) Iff.rfl
    | false => exact h.congr fun a => by simpa using hne a

end OrderedEntityIds

/-- The list ticks exactly the given entities, each under its id. -/
structure EntityTickList.Ticks (ticks : EntityTickList) (T : EntityId → SharedEntity → Prop) :
    Prop where
  active : ∀ id entity, ticks.active id = some entity ↔ T id entity
  order : Enumerates ticks.order fun id => ∃ entity, T id entity

namespace EntityTickList.Ticks

variable {ticks : EntityTickList} {T T' : EntityId → SharedEntity → Prop} {entity : SharedEntity}

theorem congr (h : ticks.Ticks T) (hiff : ∀ id entity, T id entity ↔ T' id entity) :
    ticks.Ticks T' :=
  ⟨fun id entity => (h.active id entity).trans (hiff id entity),
    h.order.congr fun id => exists_congr (hiff id)⟩

theorem add (h : ticks.Ticks T) (entity : SharedEntity) :
    (ticks.add entity).2.Ticks
        (fun id entity' => id ≠ entity.id ∧ T id entity' ∨ id = entity.id ∧ entity' = entity) ∧
      ((ticks.add entity).1 = true ↔ ¬ ∃ entity', T entity.id entity') := by
  have hsome : (ticks.active entity.id).isSome = true ↔ ∃ entity', T entity.id entity' := by
    rw [isSome_iff_exists]
    exact exists_congr (h.active entity.id)
  have hactive : ∀ id entity', update ticks.active entity.id (some entity) id =
      some entity' ↔ id ≠ entity.id ∧ T id entity' ∨ id = entity.id ∧ entity' = entity := by
    intro id entity'
    by_cases hid : id = entity.id
    · subst hid
      simp [update_self, eq_comm]
    · simp [hid, h.active]
  unfold EntityTickList.add
  split
  · rename_i hadded
    refine ⟨⟨hactive, h.order.congr fun id => ?_⟩, by simp [hsome.1 hadded]⟩
    by_cases hid : id = entity.id
    · subst hid
      simpa using hsome.1 hadded
    · simp [hid]
  · rename_i hadded
    rw [hsome] at hadded
    refine ⟨⟨hactive, (h.order.append hadded).congr fun id => ?_⟩, by simp [hadded]⟩
    by_cases hid : id = entity.id
    · subst hid
      simp
    · simp [hid]

theorem remove (h : ticks.Ticks T) (id : EntityId) :
    (ticks.remove id).2.Ticks (fun a entity => T a entity ∧ a ≠ id) ∧
      (ticks.remove id).1 = ticks.active id := by
  unfold EntityTickList.remove
  cases hactive : ticks.active id with
  | none =>
    refine ⟨h.congr fun a entity => (and_iff_left_of_imp ?_).symm, rfl⟩
    rintro hT rfl
    rw [← h.active, hactive] at hT
    cases hT
  | some removed =>
    refine ⟨⟨fun a entity => ?_, (h.order.filter _).congr fun a => ?_⟩, rfl⟩
    · by_cases ha : a = id
      · subst ha
        simp [update_self]
      · simp [ha, h.active]
    · simp

theorem retarget (old new : Bool) (h : ticks.Ticks T)
    (hid : ∀ entity', T entity.id entity' ↔ old = true ∧ entity' = entity) :
    (if old && !new then (ticks.remove entity.id).2
      else if !old && new then (ticks.add entity).2
      else ticks).Ticks
      fun a entity' => (a ≠ entity.id ∧ T a entity') ∨ a = entity.id ∧ new = true ∧
        entity' = entity := by
  cases old with
  | true =>
    cases new with
    | true =>
      refine h.congr fun a entity' => ?_
      by_cases ha : a = entity.id
      · simp [ha, hid]
      · simp [ha]
    | false => exact (h.remove entity.id).1.congr fun a entity' => by simp [and_comm]
  | false =>
    cases new with
    | true => exact (h.add entity).1.congr fun a entity' => by simp
    | false =>
      refine h.congr fun a entity' => ?_
      by_cases ha : a = entity.id
      · simp [ha, hid]
      · simp [ha]

end EntityTickList.Ticks

def SortedBy {κ : Type} (index : κ → Option (List EntityId)) (rank : EntityId → EntityQueryOrder) :
    Prop :=
  ∀ k ids, index k = some ids → ids.Pairwise fun a b => rank a < rank b

section Cells

variable {index : EntitySpatialCell → Option (List EntityId)}
  {belongs : EntityId → EntitySpatialCell → Prop} {rank rank' : EntityId → EntityQueryOrder}
  {id : EntityId} {cells : List EntitySpatialCell}

theorem SortedBy.congr (h : SortedBy index rank)
    (hrank : ∀ k ids, index k = some ids → ∀ a ∈ ids, rank' a = rank a) :
    SortedBy index rank' := by
  intro k ids hids
  refine (h k ids hids).imp_of_mem fun {a b} ha hb hlt => ?_
  rw [hrank k ids hids a ha, hrank k ids hids b hb]
  exact hlt

theorem SortedBy.remove {κ : Type} [DecidableEq κ] {index : κ → Option (List EntityId)}
    (h : SortedBy index rank) (k : κ) (a : EntityId) :
    SortedBy (removeFromBucket index k a) rank := by
  intro j ids hids
  by_cases hjk : j = k
  · subst hjk
    rw [removeFromBucket_self, bind_eq_some_iff] at hids
    obtain ⟨old, hold, hrest⟩ := hids
    split at hrest
    · cases hrest
    · obtain rfl := Option.some.inj hrest
      exact (h j old hold).sublist erase_sublist
  · rw [removeFromBucket_of_ne hjk] at hids
    exact h j ids hids

theorem Buckets.removeCells (h : Buckets index belongs) (cells : List EntitySpatialCell)
    (id : EntityId) :
    Buckets (cells.foldl (fun index cell => removeFromBucket index cell id) index)
      fun a cell => belongs a cell ∧ ¬ (a = id ∧ cell ∈ cells) := by
  induction cells generalizing index belongs with
  | nil => exact h.congr (by simp)
  | cons cell cells ih =>
    refine (ih (h.remove cell id)).congr fun a c => ?_
    rw [mem_cons, and_assoc, ← not_or, ← and_or_left]

theorem SortedBy.removeCells (h : SortedBy index rank) (cells : List EntitySpatialCell)
    (id : EntityId) :
    SortedBy (cells.foldl (fun index cell => removeFromBucket index cell id) index) rank := by
  induction cells generalizing index with
  | nil => exact h
  | cons cell cells ih => exact ih (h.remove cell id)

variable {m : ManagerState Box}

theorem insertionIndex_eq {ids : List EntityId} {q : EntityQueryOrder}
    (hsorted : ids.Pairwise fun a b => rank a < rank b)
    (hrank : ∀ a ∈ ids, ∃ entry, m.liveById a = some entry ∧ entry.queryOrder = rank a) :
    m.insertionIndex ids q = ids.findIdx fun a => decide (q < rank a) := by
  have hlater : ∀ a ∈ ids, (m.liveById a).any (fun entry => decide (q < entry.queryOrder)) =
      decide (q < rank a) := by
    intro a ha
    obtain ⟨entry, hentry, hrank⟩ := hrank a ha
    rw [hentry, any_some, hrank]
  have hfind : (ids.findIdx? fun a =>
      (m.liveById a).any fun entry => decide (q < entry.queryOrder)).getD ids.length =
      ids.findIdx fun a => decide (q < rank a) := by
    rw [List.findIdx_eq_getD_findIdx?]
    congr 1
    exact findIdx?_congr hlater
  unfold insertionIndex
  dsimp only
  split
  · rename_i hlast
    rw [eq_comm, findIdx_eq_length]
    intro a ha
    obtain ⟨last, hl⟩ := isSome_iff_exists.1
      (List.getLast?_isSome.2 (ne_nil_of_mem ha))
    rw [hl, all_some] at hlast
    have hmem : last ∈ ids := List.mem_of_getLast? hl
    obtain ⟨entry, hentry, hrank'⟩ := hrank last hmem
    rw [hentry, all_some, decide_eq_true_iff, hrank'] at hlast
    have hle : rank a ≤ rank last := by
      obtain ⟨before, rfl⟩ := List.getLast?_eq_some_iff.1 hl
      rcases mem_append.1 ha with hbefore | hlast
      · exact ((pairwise_append.1 hsorted).2.2 a hbefore last (by simp)).le
      · rw [mem_singleton.1 hlast]
    simpa using hle.trans hlast
  · exact hfind

variable (id) in
theorem insertIntoSpatialCell_spec (cell : EntitySpatialCell)
    (hindex : Buckets m.bySpatialCell belongs) (hsorted : SortedBy m.bySpatialCell rank)
    (hlive : ∀ a, belongs a cell → ∃ entry, m.liveById a = some entry ∧ entry.queryOrder = rank a)
    (hnew : ¬ belongs id cell) (hne : ∀ a, belongs a cell → rank a ≠ rank id) :
    ∃ index, insertIntoSpatialCell id (rank id) m cell = .ok { m with bySpatialCell := index } ∧
      Buckets index (fun a c => belongs a c ∨ a = id ∧ c = cell) ∧ SortedBy index rank := by
  have hids : ∀ a ∈ (m.bySpatialCell cell).getD [], belongs a cell := fun a => hindex.mem_getD.1
  have hpairwise : ((m.bySpatialCell cell).getD []).Pairwise fun a b => rank a < rank b := by
    cases hcell : m.bySpatialCell cell with
    | none => exact .nil
    | some ids => exact hsorted cell ids hcell
  unfold insertIntoSpatialCell
  rw [if_neg fun hmem => hnew (hids id hmem),
    insertionIndex_eq hpairwise fun a ha => hlive a (hids a ha), insertIdx_findIdx]
  refine ⟨_, rfl, hindex.put hnew (insertSorted_perm rank id _), ?_⟩
  intro c ids hc
  by_cases hcell : c = cell
  · subst hcell
    rw [update_self] at hc
    obtain rfl := Option.some.inj hc
    exact pairwise_lt_insertSorted hpairwise fun a ha => hne a (hids a ha)
  · rw [update_of_ne hcell] at hc
    exact hsorted c ids hc

variable (cells belongs) in
theorem insertIntoSpatialCells_spec {q : EntityQueryOrder} (hq : rank id = q)
    (hindex : Buckets m.bySpatialCell belongs) (hsorted : SortedBy m.bySpatialCell rank)
    (hlive : ∀ a c, belongs a c → ∃ entry, m.liveById a = some entry ∧ entry.queryOrder = rank a)
    (hnew : ∀ c, ¬ belongs id c) (hne : ∀ a c, belongs a c → rank a ≠ rank id)
    (hcells : cells.Nodup) :
    ∃ index, m.insertIntoSpatialCells cells id q = .ok { m with bySpatialCell := index } ∧
      Buckets index (fun a c => belongs a c ∨ a = id ∧ c ∈ cells) ∧ SortedBy index rank := by
  subst hq
  suffices ∀ (done left : List EntitySpatialCell)
      (index : EntitySpatialCell → Option (List EntityId)),
      (done ++ left).Nodup →
      Buckets index (fun a c => belongs a c ∨ a = id ∧ c ∈ done) → SortedBy index rank →
      ∃ index', left.foldlM (insertIntoSpatialCell id (rank id)) { m with bySpatialCell := index } =
          .ok { m with bySpatialCell := index' } ∧
        Buckets index' (fun a c => belongs a c ∨ a = id ∧ c ∈ done ++ left) ∧
        SortedBy index' rank from
    this [] cells m.bySpatialCell hcells (hindex.congr (by simp)) hsorted
  intro done left
  induction left generalizing done with
  | nil =>
    intro index _ hindex hsorted
    exact ⟨index, rfl, hindex.congr (by simp), hsorted⟩
  | cons cell left ih =>
    intro index hnodup hindex hsorted
    have hcell : cell ∉ done := fun hmem =>
      (nodup_append.1 hnodup).2.2 cell hmem cell mem_cons_self rfl
    have hothers : ∀ a, belongs a cell ∨ a = id ∧ cell ∈ done → belongs a cell := by
      rintro a (ha | ⟨-, hmem⟩)
      · exact ha
      · exact absurd hmem hcell
    obtain ⟨index', hinsert, hindex', hsorted'⟩ := insertIntoSpatialCell_spec id
      (m := { m with bySpatialCell := index }) cell hindex hsorted
      (fun a ha => hlive a cell (hothers a ha)) (fun hid => hnew cell (hothers id hid))
      (fun a ha => hne a cell (hothers a ha))
    obtain ⟨index'', hrest, hresult⟩ := ih (done ++ [cell]) index'
      (by rwa [append_assoc, singleton_append])
      (hindex'.congr fun a c => by rw [mem_append, mem_singleton]; tauto) hsorted'
    refine ⟨index'', ?_, by simpa only [append_assoc, singleton_append] using hresult⟩
    rw [foldlM_cons, hinsert]
    exact hrest

end Cells

/-- The result meets the condition, and no assertion fails but that of the insertion order. -/
def Returns {α : Type} (P : α → Prop) : Except ManagerPanic α → Prop
  | .ok a => P a
  | .error panic => panic = .sectionOrderExhausted

namespace Returns

variable {α β : Type} {P P' : α → Prop} {Q : β → Prop} {x : Except ManagerPanic α}

theorem mono (h : Returns P x) (himp : ∀ a, P a → P' a) : Returns P' x := by
  cases x with
  | ok a => exact himp a h
  | error panic => exact h

variable {f : α → Except ManagerPanic β}

theorem bind (h : Returns P x) (hf : ∀ a, P a → Returns Q (f a)) : Returns Q (x >>= f) := by
  cases x with
  | ok a => exact hf a h
  | error panic => exact h

theorem bind_ok {a : α} {y : Except ManagerPanic β} (hx : x = .ok a) (hf : f a = y) :
    (x >>= f) = y := by
  rw [hx]
  exact hf

theorem of_ok {a : α} (hx : x = .ok a) (hf : Returns Q (f a)) : Returns Q (x >>= f) := by
  rw [hx]
  exact hf

theorem map {f : α → β} (h : Returns (fun a => Q (f a)) x) : Returns Q (x.map f) := by
  cases x with
  | ok a => exact h
  | error panic => exact h

theorem foldlM {f : β → α → Except ManagerPanic β} {l : List α} {b : β} (hb : Q b)
    (hf : ∀ b, Q b → ∀ a ∈ l, Returns Q (f b a)) : Returns Q (l.foldlM f b) := by
  induction l generalizing b with
  | nil => exact hb
  | cons a l ih =>
    refine (hf b hb a mem_cons_self).bind fun b' hb' => ih hb' ?_
    exact fun b hb a ha => hf b hb a (mem_cons_of_mem _ ha)

end Returns

def rankIn (live : EntityId → Option (EntityEntry Box)) (id : EntityId) : EntityQueryOrder :=
  ((live id).map EntityEntry.queryOrder).getD (toLex (0, 0))

variable {live : EntityId → Option (EntityEntry Box)}

theorem rankIn_of_some {id : EntityId}
    {entry : EntityEntry Box} (h : live id = some entry) : rankIn live id = entry.queryOrder := by
  rw [rankIn, h]
  rfl

theorem rankIn_update_of_ne {a id : EntityId} {entry : Option (EntityEntry Box)} (h : a ≠ id) :
    rankIn (update live id entry) a = rankIn live a := by
  rw [rankIn, update_of_ne h]
  rfl

/-- Every index has exactly the live entities that belong there. -/
structure ManagerState.Indexed (fromAabb : Box → EntitySpatialCellBounds) (m : ManagerState Box) :
    Prop where
  id : ∀ id entry, m.liveById id = some entry → entry.entity.id = id
  uuid : ∀ uuid id, m.liveByUuid uuid = some id ↔ LiveWith m.liveById (uuid = ·.uuid) id
  sectionPos : Buckets m.bySection.lookup fun id key =>
    LiveWith m.liveById (key = ·.sectionPos.pack) id
  chunk : Buckets m.byChunk fun id chunk => LiveWith m.liveById (chunk = ·.chunk) id
  cell : Buckets m.bySpatialCell fun id cell => LiveWith m.liveById (cell ∈ ·.spatialCells) id
  sorted : SortedBy m.bySpatialCell (rankIn m.liveById)
  box : ∀ id entry, m.liveById id = some entry →
    entry.spatialCells = (fromAabb entry.boundingBox).cells
  order_lt : ∀ id entry, m.liveById id = some entry → entry.sectionOrder < m.nextSectionOrder
  order_inj : ∀ id entry id' entry', m.liveById id = some entry → m.liveById id' = some entry' →
    entry.sectionOrder = entry'.sectionOrder → id = id'

/-- What chunks retain and how visible they are stays the same. -/
structure ManagerState.SameChunks (m m' : ManagerState Box) : Prop where
  chunkVisibility : m'.chunkVisibility = m.chunkVisibility
  unloadingByChunk : m'.unloadingByChunk = m.unloadingByChunk
  savePendingByChunk : m'.savePendingByChunk = m.savePendingByChunk

/-- The live entry of the id is taken out. -/
structure ManagerState.Removes (m m' : ManagerState Box) (id : EntityId) : Prop where
  live : m'.liveById = update m.liveById id none
  ticks : m'.tickList = (m.tickList.remove id).2
  accessible : m'.accessibleOrder = m.accessibleOrder.erase id
  chunks : m.SameChunks m'

/-- The entry becomes live. -/
structure ManagerState.Inserts (m m' : ManagerState Box) (entry : EntityEntry Box) : Prop where
  live : m'.liveById = update m.liveById entry.entity.id (some entry)
  ticks : m'.tickList = m.tickList
  accessible : m'.accessibleOrder =
    if m.isAccessible entry then insert m.accessibleOrder entry.entity.id
    else m.accessibleOrder
  chunks : m.SameChunks m'

/-- The entries differ in box, cells and order of insertion only. -/
structure EntityEntry.Same (entry entry' : EntityEntry Box) : Prop where
  entity : entry'.entity = entry.entity
  uuid : entry'.uuid = entry.uuid
  sectionPos : entry'.sectionPos = entry.sectionPos
  chunk : entry'.chunk = entry.chunk
  ownership : entry'.ownership = entry.ownership

section Sections

variable {m : ManagerState Box} {sectionPos : SectionPos} {id : EntityId}

theorem removeFromSection_eq (m : ManagerState Box) (sectionPos : SectionPos) (id : EntityId) :
    ∃ sections, m.removeFromSection sectionPos id = { m with bySection := sections } ∧
      sections.lookup = removeFromBucket m.bySection.lookup sectionPos.pack id := by
  unfold removeFromSection
  cases hold : m.bySection.lookup sectionPos.pack with
  | none =>
    refine ⟨m.bySection, rfl, funext fun key => ?_⟩
    by_cases hkey : key = sectionPos.pack
    · subst hkey
      rw [removeFromBucket_self, hold]
      rfl
    · rw [removeFromBucket_of_ne hkey]
  | some ids =>
    dsimp only
    split
    · rename_i hempty
      refine ⟨_, rfl, funext fun key => ?_⟩
      by_cases hkey : key = sectionPos.pack
      · subst hkey
        rw [lookup_erase, removeFromBucket_self, hold, bind_some, if_pos hempty]
      · rw [lookup_erase_ne hkey, removeFromBucket_of_ne hkey]
    · rename_i hempty
      refine ⟨_, rfl, funext fun key => ?_⟩
      by_cases hkey : key = sectionPos.pack
      · subst hkey
        rw [lookup_insert, removeFromBucket_self, hold, bind_some, if_neg hempty]
      · rw [lookup_insert_ne hkey, removeFromBucket_of_ne hkey]

theorem lookup_insertIntoSection (m : ManagerState Box) (sectionPos : SectionPos) (id : EntityId) :
    (m.insertIntoSection sectionPos id).bySection.lookup =
      update m.bySection.lookup sectionPos.pack
        (some (insert ((m.bySection.lookup sectionPos.pack).getD []) id)) := by
  ext1 key
  unfold insertIntoSection
  by_cases hkey : key = sectionPos.pack
  · subst hkey
    rw [lookup_insert, update_self]
  · rw [lookup_insert_ne hkey, update_of_ne hkey]

end Sections

namespace ManagerState.Indexed

variable {m : ManagerState Box} {id : EntityId} {entry : EntityEntry Box}

section

variable (h : m.Indexed fromAabb)

include h

theorem removeLiveEntry (hlive : m.liveById id = some entry) :
    ∃ m', m.removeLiveEntry id = some (entry, m') ∧ m.Removes m' id ∧ m'.Indexed fromAabb ∧
      m'.nextSectionOrder = m.nextSectionOrder := by
  obtain ⟨sections, hsections, hlookup⟩ := removeFromSection_eq
    { m with
      liveById := update m.liveById id none
      tickList := (m.tickList.remove id).2
      liveByUuid := update m.liveByUuid entry.uuid none
      accessibleOrder := m.accessibleOrder.erase id } entry.sectionPos id
  have hremove : m.removeLiveEntry id = some (entry,
      { m with
        liveById := update m.liveById id none
        tickList := (m.tickList.remove id).2
        liveByUuid := update m.liveByUuid entry.uuid none
        accessibleOrder := m.accessibleOrder.erase id
        bySection := sections
        bySpatialCell := entry.spatialCells.foldl (fun index cell => removeFromBucket index cell id)
          m.bySpatialCell
        byChunk := removeFromBucket m.byChunk entry.chunk id }) := by
    unfold ManagerState.removeLiveEntry
    rw [hlive]
    dsimp only
    rw [hsections]
    rfl
  refine ⟨_, hremove, ⟨rfl, rfl, rfl, rfl, rfl, rfl⟩,
    ⟨fun a e ha => h.id a e (update_none_cases ha).2, ?_, ?_,
      (h.chunk.remove _ id).congr fun a chunk => liveWith_removed hlive,
      (h.cell.removeCells _ id).congr fun a cell => liveWith_removed hlive, ?_,
      fun a e ha => h.box a e (update_none_cases ha).2,
      fun a e ha => h.order_lt a e (update_none_cases ha).2,
      fun a e b e' ha hb => h.order_inj a e b e' (update_none_cases ha).2
        (update_none_cases hb).2⟩, rfl⟩
  · intro uuid a
    rw [← liveWith_removed hlive, ← h.uuid]
    dsimp only
    by_cases huuid : uuid = entry.uuid
    · subst huuid
      have hid : m.liveByUuid entry.uuid = some id := (h.uuid _ _).2 ⟨entry, hlive, rfl⟩
      rw [update_self, hid, some_inj]
      constructor
      · exact nofun
      · rintro ⟨rfl, hne⟩
        exact absurd ⟨rfl, rfl⟩ hne
    · rw [update_of_ne huuid]
      exact (and_iff_left fun hentry => huuid hentry.2).symm
  · have hsection := (h.sectionPos.remove entry.sectionPos.pack id).congr
      fun a key => liveWith_removed hlive
    rwa [← hlookup] at hsection
  · refine (h.sorted.removeCells entry.spatialCells id).congr fun cell ids hids a ha => ?_
    refine rankIn_update_of_ne ?_
    rintro rfl
    have hmem := ((h.cell.removeCells entry.spatialCells a).mem a cell).1 ⟨ids, hids, ha⟩
    exact hmem.2 ⟨rfl, (liveWith_of_some hlive).1 hmem.1⟩

theorem insertLiveEntry (hid : m.liveById entry.entity.id = none)
    (huuid : m.liveByUuid entry.uuid = none) :
    Returns (fun m' => ∃ entry', entry.Same entry' ∧ m.Inserts m' entry' ∧ m'.Indexed fromAabb)
      (m.insertLiveEntry fromAabb view entry) := by
  by_cases horder : m.nextSectionOrder < 2 ^ 64 - 1
  case neg =>
    have hpanic : m.insertLiveEntry fromAabb view entry = .error .sectionOrderExhausted := by
      unfold ManagerState.insertLiveEntry takeSectionOrder
      rw [if_neg (by rw [hid]; simp), if_neg (by rw [huuid]; simp)]
      simp only [if_neg horder]
      rfl
    rw [hpanic]
    rfl
  obtain ⟨entry', hentry'⟩ : ∃ entry', entry' = { entry with
      boundingBox := view.boundingBox entry.entity.id
      spatialCells := (fromAabb (view.boundingBox entry.entity.id)).cells
      sectionOrder := m.nextSectionOrder } := ⟨_, rfl⟩
  obtain ⟨live, hlive⟩ : ∃ live, live = update m.liveById entry.entity.id (some entry') :=
    ⟨_, rfl⟩
  have hself : live entry.entity.id = some entry' := by rw [hlive, update_self]
  have hne : ∀ {a e}, m.liveById a = some e → a ≠ entry.entity.id := by
    rintro a e ha rfl
    exact absurd (hid.symm.trans ha) nofun
  have hold : ∀ {a e}, m.liveById a = some e → live a = some e := by
    intro a e ha
    rw [hlive, update_of_ne (hne ha), ha]
  have hrank : rankIn live entry.entity.id = entry'.queryOrder := rankIn_of_some hself
  obtain ⟨index, hcells, hindex, hsorted⟩ := insertIntoSpatialCells_spec _ entry'.spatialCells
    (m := { m with
      liveByUuid := update m.liveByUuid entry.uuid (some entry.entity.id)
      nextSectionOrder := m.nextSectionOrder + 1 }.insertIntoSection entry.sectionPos
        entry.entity.id)
    hrank h.cell
    (h.sorted.congr fun cell ids hids a ha => by
      obtain ⟨e, he, -⟩ := (h.cell.mem a cell).1 ⟨ids, hids, ha⟩
      rw [hlive, rankIn_update_of_ne (hne he)])
    (fun a cell => fun ⟨e, he, _⟩ => ⟨e, he, (rankIn_of_some (hold he)).symm⟩)
    (fun cell hcell => hcell.ne_of_none hid rfl)
    (fun a cell => by
      rintro ⟨e, he, -⟩ heq
      rw [hrank, rankIn_of_some (hold he)] at heq
      have horder : e.sectionOrder = m.nextSectionOrder := by
        have hsnd := congrArg (fun q : EntityQueryOrder => (ofLex q).2) heq
        rwa [hentry'] at hsnd
      exact (h.order_lt a e he).ne horder)
    (by rw [hentry']; exact (fromAabb _).nodup_cells)
  have hinsert : m.insertLiveEntry fromAabb view entry = .ok
      { m with
        liveById := live
        liveByUuid := update m.liveByUuid entry.uuid (some entry.entity.id)
        bySection := (m.insertIntoSection entry.sectionPos entry.entity.id).bySection
        bySpatialCell := index
        byChunk := (m.insertIntoChunk entry.chunk entry.entity.id).byChunk
        accessibleOrder :=
          if m.isAccessible entry' then insert m.accessibleOrder entry.entity.id
          else m.accessibleOrder
        nextSectionOrder := m.nextSectionOrder + 1 } := by
    unfold ManagerState.insertLiveEntry takeSectionOrder
    rw [if_neg (by rw [hid]; simp), if_neg (by rw [huuid]; simp)]
    subst hentry' hlive
    refine Returns.bind_ok (if_pos horder) (Returns.bind_ok hcells ?_)
    by_cases haccessible : m.isAccessible { entry with
        boundingBox := view.boundingBox entry.entity.id
        spatialCells := (fromAabb (view.boundingBox entry.entity.id)).cells
        sectionOrder := m.nextSectionOrder } = true
    · rw [if_pos haccessible]
      exact if_pos haccessible
    · rw [if_neg haccessible]
      exact if_neg haccessible
  rw [hinsert]
  have hsame : entry.Same entry' := by
    rw [hentry']
    exact ⟨rfl, rfl, rfl, rfl, rfl⟩
  refine ⟨entry', hsame, ⟨?_, rfl, ?_, rfl, rfl, rfl⟩, ?_⟩
  · rw [hsame.entity, hlive]
  · rw [hsame.entity]
  subst hlive
  refine ⟨?_, ?_, ?_, ?_, hindex.congr fun a cell => liveWith_inserted hid, hsorted,
    ?_, ?_, ?_⟩
  · intro a e ha
    rcases update_some_cases ha with ⟨rfl, rfl⟩ | ⟨-, ha⟩
    · rw [hsame.entity]
    · exact h.id a e ha
  · intro uuid a
    rw [← liveWith_inserted hid, ← h.uuid, hsame.uuid]
    dsimp only
    by_cases heq : uuid = entry.uuid
    · subst heq
      rw [update_self, huuid, some_inj]
      simp [eq_comm]
    · rw [update_of_ne heq]
      simp [heq]
  · rw [lookup_insertIntoSection]
    refine (h.sectionPos.put (fun hold => hold.ne_of_none hid rfl) (insert_perm
      fun hmem => (h.sectionPos.mem_getD.1 hmem).ne_of_none hid rfl)).congr fun a key => ?_
    rw [← liveWith_inserted hid, hsame.sectionPos]
  · refine (h.chunk.put (fun hold => hold.ne_of_none hid rfl) (insert_perm
      fun hmem => (h.chunk.mem_getD.1 hmem).ne_of_none hid rfl)).congr fun a chunk => ?_
    rw [← liveWith_inserted hid, hsame.chunk]
  · intro a e ha
    rcases update_some_cases ha with ⟨rfl, rfl⟩ | ⟨-, ha⟩
    · rw [hentry']
    · exact h.box a e ha
  · intro a e ha
    rcases update_some_cases ha with ⟨rfl, rfl⟩ | ⟨-, ha⟩
    · rw [hentry']
      exact Nat.lt_succ_self _
    · exact Nat.lt_succ_of_lt (h.order_lt a e ha)
  · intro a e b e' ha hb heq
    have horder' : entry'.sectionOrder = m.nextSectionOrder := by rw [hentry']
    rcases update_some_cases ha with ⟨rfl, rfl⟩ | ⟨-, ha'⟩
    · rcases update_some_cases hb with ⟨rfl, rfl⟩ | ⟨-, hb'⟩
      · rfl
      · exact absurd (heq.symm.trans horder') (h.order_lt b e' hb').ne
    · rcases update_some_cases hb with ⟨rfl, rfl⟩ | ⟨-, hb'⟩
      · exact absurd (heq.trans horder') (h.order_lt a e ha').ne
      · exact h.order_inj a e b e' ha' hb' heq

theorem replaceCells (hlive : m.liveById id = some entry) (entry' : EntityEntry Box)
    (m₁ : ManagerState Box) (hlive₁ : m₁.liveById = m.liveById)
    (hcell : m₁.bySpatialCell = m.bySpatialCell) (hcells : entry'.spatialCells.Nodup)
    (hne : ∀ a e, a ≠ id → m.liveById a = some e → e.queryOrder ≠ entry'.queryOrder) :
    ∃ index, (m₁.removeFromSpatialCells entry.spatialCells id).insertIntoSpatialCells
        entry'.spatialCells id entry'.queryOrder = .ok { m₁ with bySpatialCell := index } ∧
      Buckets index (fun a cell =>
        LiveWith (update m.liveById id (some entry')) (cell ∈ ·.spatialCells) a) ∧
      SortedBy index (rankIn (update m.liveById id (some entry'))) := by
  have hremoved := h.cell.removeCells entry.spatialCells id
  have hother : ∀ a cell, LiveWith m.liveById (cell ∈ ·.spatialCells) a ∧
      ¬ (a = id ∧ cell ∈ entry.spatialCells) → a ≠ id := by
    rintro a cell ⟨hold, hnot⟩ rfl
    exact hnot ⟨rfl, (liveWith_of_some hlive).1 hold⟩
  have hrank : rankIn (update m.liveById id (some entry')) id = entry'.queryOrder :=
    rankIn_of_some (update_self ..)
  obtain ⟨index, hinsert, hindex, hsorted⟩ := insertIntoSpatialCells_spec
    (fun a cell => LiveWith m.liveById (cell ∈ ·.spatialCells) a ∧
      ¬ (a = id ∧ cell ∈ entry.spatialCells)) entry'.spatialCells
    (m := m₁.removeFromSpatialCells entry.spatialCells id) hrank
    (by unfold removeFromSpatialCells; rw [hcell]; exact hremoved)
    (by
      unfold removeFromSpatialCells
      rw [hcell]
      refine (h.sorted.removeCells entry.spatialCells id).congr fun cell ids hids a ha => ?_
      exact rankIn_update_of_ne (hother a cell ((hremoved.mem a cell).1 ⟨ids, hids, ha⟩)))
    (fun a cell hold => by
      obtain ⟨e, he, -⟩ := hold.1
      refine ⟨e, by unfold removeFromSpatialCells; rw [hlive₁]; exact he, ?_⟩
      rw [rankIn_update_of_ne (hother a cell hold), rankIn_of_some he])
    (fun cell hold => hother id cell hold rfl)
    (fun a cell hold => by
      obtain ⟨e, he, -⟩ := hold.1
      rw [hrank, rankIn_update_of_ne (hother a cell hold), rankIn_of_some he]
      exact hne a e (hother a cell hold) he)
    hcells
  exact ⟨index, hinsert, hindex.congr fun a cell => liveWith_replaced hlive, hsorted⟩

theorem replaceEntry (hlive : m.liveById id = some entry) (entry' : EntityEntry Box)
    (hentity : entry'.entity = entry.entity) (huuid : entry'.uuid = entry.uuid)
    (hbox : entry'.spatialCells = (fromAabb entry'.boundingBox).cells) {m' : ManagerState Box}
    (hlive' : m'.liveById = update m.liveById id (some entry'))
    (huuids : m'.liveByUuid = m.liveByUuid) (hsection : Buckets m'.bySection.lookup fun a key =>
      LiveWith m'.liveById (key = ·.sectionPos.pack) a)
    (hchunk : Buckets m'.byChunk fun a chunk => LiveWith m'.liveById (chunk = ·.chunk) a) (hcell :
      Buckets m'.bySpatialCell fun a cell => LiveWith m'.liveById (cell ∈ ·.spatialCells) a)
    (hsorted : SortedBy m'.bySpatialCell (rankIn m'.liveById))
    (hlt : entry'.sectionOrder < m'.nextSectionOrder)
    (hnext : m.nextSectionOrder ≤ m'.nextSectionOrder)
    (hinj : ∀ a e, a ≠ id → m.liveById a = some e → e.sectionOrder ≠ entry'.sectionOrder) :
    m'.Indexed fromAabb := by
  refine ⟨fun a e ha => ?_, fun uuid a => ?_, hsection, hchunk, hcell, hsorted, fun a e ha => ?_,
    fun a e ha => ?_, fun a e b e' ha hb heq => ?_⟩
  · rw [hlive'] at ha
    rcases update_some_cases ha with ⟨rfl, rfl⟩ | ⟨-, ha⟩
    · rw [hentity]
      exact h.id a entry hlive
    · exact h.id a e ha
  · rw [hlive', huuids, h.uuid, liveWith_replaced_same hlive (by rw [huuid])]
  · rw [hlive'] at ha
    rcases update_some_cases ha with ⟨rfl, rfl⟩ | ⟨-, ha⟩
    · exact hbox
    · exact h.box a e ha
  · rw [hlive'] at ha
    rcases update_some_cases ha with ⟨rfl, rfl⟩ | ⟨-, ha⟩
    · exact hlt
    · exact (h.order_lt a e ha).trans_le hnext
  · rw [hlive'] at ha hb
    rcases update_some_cases ha with ⟨rfl, rfl⟩ | ⟨hne, ha'⟩
    · rcases update_some_cases hb with ⟨rfl, rfl⟩ | ⟨hne', hb'⟩
      · rfl
      · exact absurd heq.symm (hinj b e' hne' hb')
    · rcases update_some_cases hb with ⟨rfl, rfl⟩ | ⟨hne', hb'⟩
      · exact absurd heq (hinj a e hne ha')
      · exact h.order_inj a e b e' ha' hb' heq

end

theorem queryOrder_ne {entry' : EntityEntry Box} {e : EntityEntry Box}
    (h : e.sectionOrder ≠ entry'.sectionOrder) : e.queryOrder ≠ entry'.queryOrder :=
  fun heq => h (congrArg (fun q : EntityQueryOrder => (ofLex q).2) heq)

theorem order_ne (h : m.Indexed fromAabb) (hlive : m.liveById id = some entry) {a : EntityId}
    {e : EntityEntry Box} (hne : a ≠ id) (ha : m.liveById a = some e) :
    e.sectionOrder ≠ entry.sectionOrder :=
  fun heq => hne (h.order_inj a e id entry ha hlive heq)

theorem replaceBox (h : m.Indexed fromAabb) (hlive : m.liveById id = some entry) {box : Box}
    (hcells : entry.spatialCells = (fromAabb box).cells) :
    { m with
      liveById := update m.liveById id
        (some { entry with boundingBox := box }) }.Indexed fromAabb := by
  obtain ⟨entry', hentry'⟩ : ∃ entry', entry' = { entry with boundingBox := box } := ⟨_, rfl⟩
  rw [← hentry']
  have hsection : entry'.sectionPos = entry.sectionPos := by rw [hentry']
  have hchunk : entry'.chunk = entry.chunk := by rw [hentry']
  have hsame : entry'.spatialCells = entry.spatialCells := by rw [hentry']
  have horder : entry'.sectionOrder = entry.sectionOrder := by rw [hentry']
  refine h.replaceEntry hlive entry' (by rw [hentry']) (by rw [hentry']) ?_ rfl rfl
    (h.sectionPos.congr fun a key => (liveWith_replaced_same hlive (by rw [hsection])).symm)
    (h.chunk.congr fun a chunk => (liveWith_replaced_same hlive (by rw [hchunk])).symm)
    (h.cell.congr fun a cell => (liveWith_replaced_same hlive (by rw [hsame])).symm)
    (h.sorted.congr fun cell ids _ a _ => ?_) (horder ▸ h.order_lt id entry hlive) le_rfl
    fun a e hne ha => horder ▸ h.order_ne hlive hne ha
  · rw [hentry']
    exact hcells
  · by_cases ha : a = id
    · subst ha
      rw [rankIn_of_some (update_self ..), rankIn_of_some hlive, hentry']
      rfl
    · exact rankIn_update_of_ne ha

variable (view) (id) in
theorem commitBoundingBoxChange (h : m.Indexed fromAabb) :
    ∃ m', m.commitBoundingBoxChange fromAabb view id = .ok m' ∧ m'.Indexed fromAabb ∧
      m.SameChunks m' ∧ m'.accessibleOrder = m.accessibleOrder ∧ m'.tickList = m.tickList ∧
      (m'.liveById = m.liveById ∨ ∃ entry entry', m.liveById id = some entry ∧
        m'.liveById = update m.liveById id (some entry') ∧ entry.Same entry') := by
  unfold ManagerState.commitBoundingBoxChange
  cases hlive : m.liveById id with
  | none => exact ⟨m, rfl, h, ⟨rfl, rfl, rfl⟩, rfl, rfl, .inl rfl⟩
  | some entry =>
    dsimp only
    split
    · rename_i hcells
      exact ⟨_, rfl, h.replaceBox hlive hcells, ⟨rfl, rfl, rfl⟩, rfl, rfl,
        .inr ⟨entry, _, rfl, rfl, ⟨rfl, rfl, rfl, rfl, rfl⟩⟩⟩
    · obtain ⟨entry', hentry'⟩ : ∃ entry', entry' = { entry with
          boundingBox := view.boundingBox id
          spatialCells := (fromAabb (view.boundingBox id)).cells } := ⟨_, rfl⟩
      have horder : entry'.sectionOrder = entry.sectionOrder := by rw [hentry']
      obtain ⟨index, hinsert, hindex, hsorted⟩ := h.replaceCells hlive entry' m rfl rfl
        (by rw [hentry']; exact (fromAabb _).nodup_cells)
        fun a e hne ha => queryOrder_ne (horder ▸ h.order_ne hlive hne ha)
      have hsame : entry.Same entry' := by
        rw [hentry']
        exact ⟨rfl, rfl, rfl, rfl, rfl⟩
      refine ⟨{ m with
          bySpatialCell := index
          liveById := update m.liveById id (some entry') }, ?_, ?_, ⟨rfl, rfl, rfl⟩, rfl, rfl,
        .inr ⟨entry, entry', rfl, rfl, hsame⟩⟩
      · subst hentry'
        exact Returns.bind_ok hinsert rfl
      · exact h.replaceEntry hlive entry' hsame.entity hsame.uuid (by rw [hentry']) rfl rfl
          (h.sectionPos.congr fun a key =>
            (liveWith_replaced_same hlive (by rw [hsame.sectionPos])).symm)
          (h.chunk.congr fun a chunk => (liveWith_replaced_same hlive (by rw [hsame.chunk])).symm)
          hindex hsorted (horder ▸ h.order_lt id entry hlive) le_rfl
          fun a e hne ha => horder ▸ h.order_ne hlive hne ha

end ManagerState.Indexed

end Steel
