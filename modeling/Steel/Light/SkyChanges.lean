import Steel.Light.SkyColumns

/-! # What a change does to the sources of sky light

Walking down the columns of a change queues the sources that have opened and those that have closed.
-/

namespace Steel.SkyLightEngine

open List LightCacheLayout Bool Int

variable {S : Type*} (sky : SkyLightEngine S)

def withSections (sections : LightSectionReadCache S) : SkyLightEngine S :=
  { sky with sections := sections }

def innerSources (pos : BlockCoords) : Bool := sky.layout.innerBlock pos && sky.isSource pos

variable {sky} {before : LightSectionReadCache S} {level : BlockCoords → ℕ}
  {positions : List BlockCoords}

theorem SkyLit.gathered_lt (h : sky.SkyLit level) (pos : BlockCoords) :
    sky.engine.gathered level pos < maxLightLevel := by
  refine Nat.lt_of_le_of_lt (Finset.sup_le fun d _ => ?_) (show 14 < maxLightLevel by decide)
  have hle := h.level_le (pos.relative d)
  have hone := Nat.le_max_right (sky.engine.blocks.lightDampening (sky.engine.blockState pos)) 1
  unfold maxLightLevel at hle
  split_ifs
  · exact Nat.zero_le _
  · omega

theorem SkyLit.eq_max_iff (h : sky.SkyLit level) (pos : BlockCoords) :
    level pos = maxLightLevel ↔ sky.innerSources pos = true := by
  rw [innerSources, and_eq_true]
  cases hinner : sky.layout.innerBlock pos with
  | false =>
    rw [h.outside pos hinner]
    simp [maxLightLevel]
  | true =>
    cases hsource : sky.isSource pos with
    | true => simp [h.source pos hinner hsource]
    | false =>
      rw [h.gathered pos hinner hsource]
      simp [Nat.ne_of_lt (h.gathered_lt pos)]

/-- Nothing has changed but these blocks, which lie in the centre chunk. -/
structure Changes (sky : SkyLightEngine S) (before : LightSectionReadCache S)
    (positions : List BlockCoords) : Prop where
  center : ∀ pos ∈ positions,
    sky.layout.centerBlock pos = true ∧ sky.layout.innerBlock pos = true
  same : ∀ pos ∉ positions, sky.layout.innerBlock pos = true →
    (sky.engine.withSections before).blockState pos = sky.engine.blockState pos
  above : ∀ pos : BlockCoords, sky.topY < pos.y →
    (sky.engine.withSections before).blockState pos = sky.engine.blockState pos

section Changes

variable (hchanges : sky.Changes before positions)

include hchanges

theorem Changes.reverse : sky.Changes before positions.reverse where
  center pos hpos := hchanges.center pos (mem_reverse.1 hpos)
  same pos hpos := hchanges.same pos fun hmem => hpos (mem_reverse.2 hmem)
  above := hchanges.above

theorem Changes.isSource_eq {x y z : ℤ} (hinner : sky.layout.innerBlock ⟨x, y, z⟩ = true)
    (hbelow : ∀ pos ∈ positions, pos.x = x → pos.z = z → pos.y < y) :
    (sky.withSections before).isSource ⟨x, y, z⟩ = sky.isSource ⟨x, y, z⟩ := by
  have hstate : ∀ w, y ≤ w →
      (sky.engine.withSections before).blockState ⟨x, w, z⟩ = sky.engine.blockState ⟨x, w, z⟩ := by
    intro w hw
    by_cases htop : w ≤ sky.topY
    · refine hchanges.same _ (fun hmem => ?_) ?_
      · have hlt := hbelow _ hmem rfl rfl
        simp only at hlt
        omega
      · rw [innerBlock_iff] at hinner ⊢
        unfold topY LightSectionRange.maxSectionYExclusive at htop
        simp only at hinner ⊢
        refine ⟨hinner.1, ?_⟩
        unfold blockToSectionCoord at hinner ⊢
        omega
    · exact hchanges.above _ (lt_of_not_ge htop)
  have hedge : ∀ w, y ≤ w →
      (sky.withSections before).edgeOpen ⟨x, w, z⟩ = sky.edgeOpen ⟨x, w, z⟩ := by
    intro w hw
    exact congrArg₂ sky.opensDown (hstate (w + 1) (by omega)) (hstate w hw)
  rw [Bool.eq_iff_iff, isSource_iff, isSource_iff]
  refine forall_congr' fun w => forall_congr' fun hw => forall_congr' fun _ => ?_
  rw [hedge w hw]

section

variable {pos : BlockCoords}
  (hne : (sky.withSections before).innerSources pos ≠ sky.innerSources pos)

include hne

/-- Where a source opens or closes, a block of its column has changed at or above it. -/
theorem Changes.exists_change :
    ∃ change ∈ positions, change.x = pos.x ∧ change.z = pos.z ∧ pos.y ≤ change.y := by
  by_contra hnone
  refine hne ?_
  unfold innerSources
  have hlayout : (sky.withSections before).layout = sky.layout := rfl
  rw [hlayout]
  cases hinner : sky.layout.innerBlock pos with
  | false => rfl
  | true =>
    rw [Bool.true_and, Bool.true_and]
    refine hchanges.isSource_eq hinner fun change hchange hx hz => ?_
    by_contra hle
    exact hnone ⟨change, hchange, hx, hz, not_lt.1 hle⟩

theorem Changes.center_of_ne : sky.layout.centerBlock pos = true := by
  obtain ⟨change, hchange, hx, hz, _⟩ := hchanges.exists_change hne
  have hcenter := (hchanges.center change hchange).1
  rw [centerBlock, decide_eq_true_iff] at hcenter ⊢
  rwa [← hx, ← hz]

end

end Changes

theorem innerSources_column {x y z : ℤ} (hx : blockToSectionCoord x = sky.layout.centerChunk.1)
    (hz : blockToSectionCoord z = sky.layout.centerChunk.2) :
    sky.innerSources ⟨x, y, z⟩ = true ↔ (sky.lowestY ≤ y ∧ y ≤ sky.topY) ∧
      ∀ w, y ≤ w → w ≤ sky.topY → sky.edgeOpen ⟨x, w, z⟩ = true := by
  rw [innerSources, and_eq_true, innerBlock_column hx hz, isSource_iff]

section Column

variable {x z maxY : ℤ} {context : SkyLightContext}
  {state : FloodState BlockCoords LightAxisDirection}
  (hx : blockToSectionCoord x = sky.layout.centerChunk.1)
  (hz : blockToSectionCoord z = sky.layout.centerChunk.2)
  (hchanges : sky.Changes before positions) (hlevel : (sky.withSections before).SkyLit level)
  (hmax : sky.lowestY ≤ maxY ∧ maxY ≤ sky.topY)
  (hhighest : ∀ pos ∈ positions, pos.x = x → pos.z = z → pos.y ≤ maxY)
  (hready : context.light.Ready sky.layout) (hlight : context.light.levelAt sky.layout = level)
  (hsees : sky.engine.Sees sky.layout.innerBlock context.toLightContext state)

include hchanges hhighest

theorem innerSources_above {y : ℤ} (hy : maxY < y) :
    (sky.withSections before).innerSources ⟨x, y, z⟩ = sky.innerSources ⟨x, y, z⟩ := by
  by_contra hne
  obtain ⟨change, hchange, hcx, hcz, hle⟩ := hchanges.exists_change hne
  have hmaxY := hhighest change hchange hcx hcz
  simp only at hle
  omega

include hx hz hlevel hmax hready hlight

theorem getLightLevelExtruded_above :
    sky.getLightLevelExtruded context.light ⟨x, maxY + 1, z⟩ = maxLightLevel ↔
      ∀ w, maxY < w → w ≤ sky.topY → sky.edgeOpen ⟨x, w, z⟩ = true := by
  rw [getLightLevelExtruded_of_ready hx hz hready (by omega)]
  split_ifs with htop
  · rw [hlight, hlevel.eq_max_iff, innerSources_above hchanges hhighest (by omega),
      innerSources_column hx hz]
    constructor
    · exact fun h w hw hle => h.2 w (by omega) hle
    · exact fun h => ⟨⟨by omega, htop⟩, fun w hw hle => h w (by omega) hle⟩
  · simp only [true_iff]
    intro w hw hle
    omega

include hsees

theorem tryPropagateSkylightDelayed_walks (delayed : List PackedLightQueueEntry) :
    ∃ (context' : SkyLightContext) (bottom : ℤ) (opened : List BlockCoords)
      (entries : List PackedLightQueueEntry),
      sky.tryPropagateSkylightDelayed x maxY z context delayed =
        (context', delayed ++ entries, bottom) ∧
      (∀ pos, pos ∈ opened ↔ (pos.x = x ∧ pos.z = z ∧ pos.y ≤ maxY) ∧ sky.innerSources pos = true) ∧
      (sky.lowestY - 1 ≤ bottom ∧ bottom ≤ maxY) ∧
      (∀ y, y ≤ bottom → sky.innerSources ⟨x, y, z⟩ = false) ∧
      (∀ y, bottom < y → (sky.withSections before).innerSources ⟨x, y, z⟩ = true →
        sky.innerSources ⟨x, y, z⟩ = true) ∧
      context'.light = context.light ∧
      sky.engine.Sees sky.layout.innerBlock context'.toLightContext
        { state with increases := state.increases ++ opened.map sky.openedEntry } ∧
      entries.map sky.engine.readEntry = opened.map sky.openedEntry := by
  have hstart := getLightLevelExtruded_above hx hz hchanges hlevel hmax hhighest hready hlight
  have habove : ∀ y, maxY < y → (sky.withSections before).innerSources ⟨x, y, z⟩ = true →
      sky.innerSources ⟨x, y, z⟩ = true := by
    intro y hy hb
    rwa [← innerSources_above hchanges hhighest hy]
  unfold tryPropagateSkylightDelayed
  by_cases hlit : sky.getLightLevelExtruded context.light ⟨x, maxY + 1, z⟩ = maxLightLevel
  · have hopen := hstart.1 hlit
    rw [if_neg (not_not.2 hlit)]
    have hchecked := checkMissingSectionAt_of_ready hx hz hready maxY
    have hlight' : (sky.checkMissingSectionAt x maxY z context).light = context.light :=
      congrArg LightContext.light hchecked
    have hready' : (sky.checkMissingSectionAt x maxY z context).light.Ready sky.layout := by
      rwa [hlight']
    have hsees' : sky.engine.Sees sky.layout.innerBlock
        (sky.checkMissingSectionAt x maxY z context).toLightContext state := by
      rwa [hchecked]
    obtain ⟨context', bottom, opened, entries, hresult, hwalk⟩ := propagateDown_walks hx hz
      (y := maxY) rfl (by omega) hmax.2 rfl hready' hsees'
    have hsource : ∀ y, bottom < y → y ≤ maxY → sky.innerSources ⟨x, y, z⟩ = true := by
      intro y hlow hle
      have hlowest := hwalk.lowest
      refine (innerSources_column hx hz).2 ⟨by omega, fun w hw htop => ?_⟩
      by_cases hwm : w ≤ maxY
      · exact hwalk.opens w (by omega) hwm
      · exact hopen w (by omega) htop
    have hclosed : ∀ y, y ≤ bottom → sky.innerSources ⟨x, y, z⟩ = false := by
      intro y hle
      rw [eq_false_iff]
      intro hs
      obtain ⟨hinner, hedges⟩ := (innerSources_column hx hz).1 hs
      have hbottom := hwalk.le
      have hstops := hwalk.stops (by omega)
      rw [hedges bottom hle (by omega)] at hstops
      cases hstops
    refine ⟨context', bottom, opened, entries, hresult, fun pos => ?_, ⟨hwalk.lowest, hwalk.le⟩,
      hclosed, fun y hy hb => ?_, hwalk.light.trans hlight', hwalk.sees, hwalk.read⟩
    · rw [hwalk.mem]
      constructor
      · rintro ⟨rfl, rfl, hlt, hle⟩
        exact ⟨⟨rfl, rfl, hle⟩, hsource pos.y hlt hle⟩
      · rintro ⟨⟨rfl, rfl, hle⟩, hs⟩
        refine ⟨rfl, rfl, lt_of_not_ge fun hge => ?_, hle⟩
        rw [show sky.innerSources pos = false from hclosed pos.y hge] at hs
        cases hs
    · by_cases hy' : y ≤ maxY
      · exact hsource y hy hy'
      · exact habove y (by omega) hb
  · rw [if_pos hlit]
    have hclosed : ∀ y, y ≤ maxY → sky.innerSources ⟨x, y, z⟩ = false := by
      intro y hle
      rw [eq_false_iff]
      intro hs
      obtain ⟨_, hedges⟩ := (innerSources_column hx hz).1 hs
      exact hlit (hstart.2 fun w hw htop => hedges w (by omega) htop)
    refine ⟨context, maxY, [], [], by rw [append_nil], fun pos => ?_,
      ⟨by omega, le_refl _⟩, hclosed, habove, rfl, by simpa using hsees, rfl⟩
    simp only [not_mem_nil, false_iff]
    rintro ⟨⟨rfl, rfl, hle⟩, hs⟩
    rw [show sky.innerSources pos = false from hclosed pos.y hle] at hs
    cases hs

omit hhighest hmax hchanges in
theorem removeSkySourcesBelow_walks {bottom : ℤ} (hbottom : bottom ≤ sky.topY)
    (hclosed : ∀ y, y ≤ bottom → sky.innerSources ⟨x, y, z⟩ = false)
    (hkept : ∀ y, bottom < y → (sky.withSections before).innerSources ⟨x, y, z⟩ = true →
      sky.innerSources ⟨x, y, z⟩ = true) (delayed : List PackedLightQueueEntry) :
    ∃ (context' : SkyLightContext) (closed : List BlockCoords)
      (entries : List PackedLightQueueEntry),
      sky.removeSkySourcesBelow x bottom z context delayed = (context', delayed ++ entries) ∧
      (∀ pos, pos ∈ closed ↔ (pos.x = x ∧ pos.z = z) ∧
        (sky.withSections before).innerSources pos = true ∧ sky.innerSources pos = false) ∧
      context'.light = context.light ∧
      sky.engine.Sees sky.layout.innerBlock context'.toLightContext
        { state with decreases := state.decreases ++ closed.map closedEntry } ∧
      entries.map sky.engine.readEntry = closed.map closedEntry := by
  have hsource : ∀ y, context.light.levelAt sky.layout ⟨x, y, z⟩ = maxLightLevel ↔
      (sky.withSections before).innerSources ⟨x, y, z⟩ = true := by
    intro y
    rw [hlight, hlevel.eq_max_iff]
  have hcolumn : ∀ {y}, (sky.withSections before).innerSources ⟨x, y, z⟩ = true ↔
      (sky.lowestY ≤ y ∧ y ≤ sky.topY) ∧ ∀ w, y ≤ w → w ≤ sky.topY →
        (sky.withSections before).edgeOpen ⟨x, w, z⟩ = true :=
    fun {y} => @innerSources_column S (sky.withSections before) x y z hx hz
  have hbelow : ∀ y, (sky.withSections before).innerSources ⟨x, y, z⟩ = true →
      sky.innerSources ⟨x, y, z⟩ = false → y ≤ bottom := by
    intro y hb ha
    by_contra hlt
    rw [hkept y (not_le.1 hlt) hb] at ha
    cases ha
  have hup : ∀ y w, (sky.withSections before).innerSources ⟨x, y, z⟩ = true → y ≤ w →
      w ≤ bottom → (sky.withSections before).innerSources ⟨x, w, z⟩ = true := by
    intro y w hb hyw hw
    obtain ⟨hy, hedges⟩ := hcolumn.1 hb
    exact hcolumn.2 ⟨by omega, fun v hv htop => hedges v (by omega) htop⟩
  unfold removeSkySourcesBelow
  by_cases hlow : sky.lowestY ≤ bottom
  · have hextruded := getLightLevelExtruded_of_ready hx hz hready hlow
    rw [if_pos hbottom] at hextruded
    rw [hextruded]
    by_cases hlit : context.light.levelAt sky.layout ⟨x, bottom, z⟩ = maxLightLevel
    · rw [if_neg (not_not.2 hlit)]
      obtain ⟨context', closed, entries, hresult, hremoved⟩ := removeDown_walks hx hz (y := bottom)
        rfl hbottom hready hsees
      refine ⟨context', closed, entries, hresult, fun pos => ?_, hremoved.light, hremoved.sees,
        hremoved.read⟩
      rw [hremoved.mem]
      constructor
      · rintro ⟨rfl, rfl, _, hle, hall⟩
        exact ⟨⟨rfl, rfl⟩, (hsource pos.y).1 (hall pos.y (le_refl _) hle), hclosed pos.y hle⟩
      · rintro ⟨⟨rfl, rfl⟩, hb, ha⟩
        have hle := hbelow pos.y hb ha
        exact ⟨rfl, rfl, (hcolumn.1 hb).1.1, hle,
          fun w hw hwb => (hsource w).2 (hup pos.y w hb hw hwb)⟩
    · rw [if_pos hlit]
      refine ⟨context, [], [], by rw [append_nil], fun pos => ?_, rfl, by simpa using hsees,
        rfl⟩
      simp only [not_mem_nil, false_iff]
      rintro ⟨⟨rfl, rfl⟩, hb, ha⟩
      exact hlit ((hsource bottom).2
        (hup pos.y bottom hb (hbelow pos.y hb ha) (le_refl bottom)))
  · have hstay : (if sky.getLightLevelExtruded context.light ⟨x, bottom, z⟩ ≠ maxLightLevel then
        (context, delayed) else sky.removeDown x z (bottom + 1 - sky.lowestY).toNat bottom context
          delayed) = (context, delayed) := by
      rw [show (bottom + 1 - sky.lowestY).toNat = 0 by omega]
      split_ifs <;> rfl
    refine ⟨context, [], [], by rw [hstay, append_nil], fun pos => ?_, rfl, by simpa using hsees,
      rfl⟩
    simp only [not_mem_nil, false_iff]
    rintro ⟨⟨rfl, rfl⟩, hb, ha⟩
    have hle := hbelow pos.y hb ha
    have hpos := (hcolumn.1 hb).1.1
    omega

end Column

theorem columnIndex_eq (pos : BlockCoords) :
    columnIndex pos = (pos.x % 16).toNat + (pos.z % 16).toNat * 16 :=
  or_shiftLeft (k := 4) (by omega) _

variable {index : ℕ}

theorem columnIndex_iff {pos : BlockCoords} (h : sky.layout.centerBlock pos = true)
    (hindex : index < 16 * 16) : columnIndex pos = index ↔
      pos.x = sky.layout.centerChunk.1 * 16 + (index % 16 : ℕ) ∧
        pos.z = sky.layout.centerChunk.2 * 16 + (index / 16 % 16 : ℕ) := by
  rw [centerBlock, decide_eq_true_iff] at h
  rw [columnIndex_eq]
  unfold blockToSectionCoord at h
  omega

theorem changedColumnMaxY_some (hcenter : ∀ pos ∈ positions, sky.layout.centerBlock pos = true)
    {maxY : ℤ} (h : sky.changedColumnMaxY positions index = some maxY) :
    (∃ pos ∈ positions, columnIndex pos = index ∧ pos.y = maxY) ∧
      ∀ pos ∈ positions, columnIndex pos = index → pos.y ≤ maxY := by
  rw [changedColumnMaxY, List.max?_eq_some_iff] at h
  simp only [centerPositions, mem_map, mem_filter, decide_eq_true_eq] at h
  obtain ⟨⟨pos, ⟨⟨hpos, _⟩, hindex⟩, hy⟩, hle⟩ := h
  exact ⟨⟨pos, hpos, hindex, hy⟩,
    fun pos' hpos' hindex' => hle _ ⟨pos', ⟨⟨hpos', hcenter pos' hpos'⟩, hindex'⟩, rfl⟩⟩

theorem changedColumnMaxY_none (hcenter : ∀ pos ∈ positions, sky.layout.centerBlock pos = true)
    (h : sky.changedColumnMaxY positions index = none) :
    ∀ pos ∈ positions, columnIndex pos ≠ index := by
  rw [changedColumnMaxY, List.max?_eq_none_iff, map_eq_nil_iff, filter_eq_nil_iff] at h
  intro pos hpos hindex
  exact h pos (mem_filter.2 ⟨hpos, hcenter pos hpos⟩) (by simpa using hindex)

/-- The columns that have been walked: the sources that have opened and those that have closed are
in the queues. -/
structure Walked (sky : SkyLightEngine S) (before : LightSectionReadCache S)
    (positions : List BlockCoords) (light : LightLayerEdit) (indexes : List ℕ)
    (result : SkyLightContext × DelayedEntries) (opened closed : List BlockCoords) : Prop where
  opened_source : ∀ pos ∈ opened, sky.layout.centerBlock pos = true ∧ sky.innerSources pos = true
  opened_all : ∀ pos, sky.layout.centerBlock pos = true → columnIndex pos ∈ indexes →
    (sky.withSections before).innerSources pos = false → sky.innerSources pos = true → pos ∈ opened
  closed_source : ∀ pos ∈ closed, sky.layout.centerBlock pos = true ∧
    (sky.withSections before).innerSources pos = true ∧ sky.innerSources pos = false
  closed_all : ∀ pos, sky.layout.centerBlock pos = true → columnIndex pos ∈ indexes →
    (sky.withSections before).innerSources pos = true → sky.innerSources pos = false → pos ∈ closed
  light_eq : result.1.light = light
  sees : sky.engine.Sees sky.layout.innerBlock result.1.toLightContext
    ⟨light.levelAt sky.layout, opened.map sky.openedEntry, closed.map closedEntry, []⟩
  increases : result.2.increases.map sky.engine.readEntry = opened.map sky.openedEntry
  decreases : result.2.decreases.map sky.engine.readEntry = closed.map closedEntry

section Columns

variable {light : LightLayerEdit} (hchanges : sky.Changes before positions)
  (hlevel : (sky.withSections before).SkyLit (light.levelAt sky.layout))
  (hready : light.Ready sky.layout)

include hchanges hlevel hready

theorem Walked.propagateColumn {indexes : List ℕ} {result : SkyLightContext × DelayedEntries}
    {opened closed : List BlockCoords}
    (h : Walked sky before positions light indexes result opened closed)
    (hindex : index < 16 * 16) :
    ∃ opened' closed', Walked sky before positions light (index :: indexes)
      (sky.propagateColumn positions result index) opened' closed' := by
  have hcenter := fun pos hpos => (hchanges.center pos hpos).1
  unfold SkyLightEngine.propagateColumn
  cases hmax : sky.changedColumnMaxY positions index with
  | none =>
    have hnone := changedColumnMaxY_none hcenter hmax
    have hkept : ∀ pos, sky.layout.centerBlock pos = true → columnIndex pos = index →
        (sky.withSections before).innerSources pos = sky.innerSources pos := by
      intro pos hpos hcolumn
      by_contra hne
      obtain ⟨change, hchange, hcx, hcz, _⟩ := hchanges.exists_change hne
      refine hnone change hchange ?_
      rw [columnIndex_eq, hcx, hcz, ← columnIndex_eq, hcolumn]
    refine ⟨opened, closed, { h with opened_all := ?_, closed_all := ?_ }⟩
    · intro pos hpos hmem hb ha
      rcases mem_cons.1 hmem with hcolumn | hmem
      · rw [hkept pos hpos hcolumn, ha] at hb
        cases hb
      · exact h.opened_all pos hpos hmem hb ha
    · intro pos hpos hmem hb ha
      rcases mem_cons.1 hmem with hcolumn | hmem
      · rw [hkept pos hpos hcolumn, ha] at hb
        cases hb
      · exact h.closed_all pos hpos hmem hb ha
  | some maxY =>
    obtain ⟨⟨top, htop, htopColumn, rfl⟩, hle⟩ := changedColumnMaxY_some hcenter hmax
    have hx : blockToSectionCoord (sky.layout.centerChunk.1 * 16 + (index % 16 : ℕ)) =
        sky.layout.centerChunk.1 := by
      unfold blockToSectionCoord
      omega
    have hz : blockToSectionCoord (sky.layout.centerChunk.2 * 16 + (index / 16 % 16 : ℕ)) =
        sky.layout.centerChunk.2 := by
      unfold blockToSectionCoord
      omega
    have hbounds : sky.lowestY ≤ top.y ∧ top.y ≤ sky.topY := by
      obtain ⟨htx, htz⟩ := (columnIndex_iff (hcenter top htop) hindex).1 htopColumn
      rw [← innerBlock_column (htx ▸ hx) (htz ▸ hz)]
      exact (hchanges.center top htop).2
    have hhighest : ∀ pos ∈ positions, pos.x = sky.layout.centerChunk.1 * 16 + (index % 16 : ℕ) →
        pos.z = sky.layout.centerChunk.2 * 16 + (index / 16 % 16 : ℕ) → pos.y ≤ top.y :=
      fun pos hpos hpx hpz =>
        hle pos hpos ((columnIndex_iff (hcenter pos hpos) hindex).2 ⟨hpx, hpz⟩)
    have hcolumnCenter : ∀ pos : BlockCoords,
        pos.x = sky.layout.centerChunk.1 * 16 + (index % 16 : ℕ) →
        pos.z = sky.layout.centerChunk.2 * 16 + (index / 16 % 16 : ℕ) →
        sky.layout.centerBlock pos = true := by
      rintro ⟨_, y, _⟩ rfl rfl
      exact centerBlock_column hx hz
    obtain ⟨context₁, bottom, opened', entries, hresult, hmem, hbottom, hclosed, hkept, hlight₁,
      hsees₁, hread⟩ := tryPropagateSkylightDelayed_walks hx hz hchanges hlevel hbounds hhighest
      (by rwa [h.light_eq]) (by rw [h.light_eq]) h.sees result.2.increases
    obtain ⟨context₂, closed', entries', hresult', hmem', hlight₂, hsees₂, hread'⟩ :=
      removeSkySourcesBelow_walks hx hz hlevel (by rwa [hlight₁, h.light_eq])
        (by rw [hlight₁, h.light_eq]) hsees₁ (hbottom.2.trans hbounds.2) hclosed hkept
        result.2.decreases
    simp only [hresult, hresult']
    refine ⟨opened ++ opened', closed ++ closed', ?_⟩
    constructor
    · simp only [mem_append]
      rintro pos (hpos | hpos)
      · exact h.opened_source pos hpos
      · obtain ⟨⟨hpx, hpz, _⟩, hs⟩ := (hmem pos).1 hpos
        exact ⟨hcolumnCenter pos hpx hpz, hs⟩
    · intro pos hpos hcolumn hb ha
      rcases mem_cons.1 hcolumn with hcolumn | hcolumn
      · obtain ⟨hpx, hpz⟩ := (columnIndex_iff hpos hindex).1 hcolumn
        have hne : (sky.withSections before).innerSources pos ≠ sky.innerSources pos := by
          rw [hb, ha]
          exact false_ne_true
        obtain ⟨change, hchange, hcx, hcz, hcy⟩ := hchanges.exists_change hne
        have hchangeY := hhighest change hchange (hcx.trans hpx) (hcz.trans hpz)
        exact mem_append_right _ ((hmem pos).2 ⟨⟨hpx, hpz, hcy.trans hchangeY⟩, ha⟩)
      · exact mem_append_left _ (h.opened_all pos hpos hcolumn hb ha)
    · simp only [mem_append]
      rintro pos (hpos | hpos)
      · exact h.closed_source pos hpos
      · obtain ⟨⟨hpx, hpz⟩, hs⟩ := (hmem' pos).1 hpos
        exact ⟨hcolumnCenter pos hpx hpz, hs⟩
    · intro pos hpos hcolumn hb ha
      rcases mem_cons.1 hcolumn with hcolumn | hcolumn
      · exact mem_append_right _ ((hmem' pos).2 ⟨(columnIndex_iff hpos hindex).1 hcolumn, hb, ha⟩)
      · exact mem_append_left _ (h.closed_all pos hpos hcolumn hb ha)
    · exact hlight₂.trans (hlight₁.trans h.light_eq)
    · simpa only [map_append] using hsees₂
    · rw [map_append, map_append, h.increases, hread]
    · rw [map_append, map_append, h.decreases, hread']

end Columns

end Steel.SkyLightEngine
