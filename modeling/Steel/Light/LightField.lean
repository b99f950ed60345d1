import Steel.Lib.FloodStart
import Steel.Light.LightEngine

/-! # The light that blocks should have

Light should reach the blocks of the inner chunks as far as its sources and the dampening on the way
let it.
-/

namespace Steel

open LightCacheLayout Bool Nat

namespace LightCacheLayout

variable (layout : LightCacheLayout)

def innerBlock (pos : BlockCoords) : Bool :=
  layout.containsInnerChunkCoords (blockToSectionCoord pos.x) (blockToSectionCoord pos.z) &&
    decide (layout.range.minSectionY ≤ blockToSectionCoord pos.y ∧
      blockToSectionCoord pos.y < layout.range.minSectionY + layout.range.sectionCount)

def centerBlock (pos : BlockCoords) : Bool :=
  blockToSectionCoord pos.x = layout.centerChunk.1 ∧
    blockToSectionCoord pos.z = layout.centerChunk.2

def chunkGap (chunk coord : ℤ) : ℕ :=
  max (chunk * 16 - coord).toNat (coord - (chunk * 16 + 15)).toNat

def centerGap (pos : BlockCoords) : ℕ :=
  max (chunkGap layout.centerChunk.1 pos.x) (chunkGap layout.centerChunk.2 pos.z)

variable {layout} {pos : BlockCoords}

theorem innerBlock_iff : layout.innerBlock pos = true ↔
    ((layout.centerChunk.1 - 1 ≤ blockToSectionCoord pos.x ∧
        blockToSectionCoord pos.x ≤ layout.centerChunk.1 + 1) ∧
      layout.centerChunk.2 - 1 ≤ blockToSectionCoord pos.z ∧
        blockToSectionCoord pos.z ≤ layout.centerChunk.2 + 1) ∧
    layout.range.minSectionY ≤ blockToSectionCoord pos.y ∧
      blockToSectionCoord pos.y < layout.range.minSectionY + layout.range.sectionCount := by
  rw [innerBlock, and_eq_true, decide_eq_true_iff, containsInnerChunkCoords,
    decide_eq_true_iff, chunkDistance, Nat.max_le]
  refine and_congr_left fun _ => ?_
  omega

theorem chunkGap_le {chunk coord : ℤ} {gap : ℕ} : chunkGap chunk coord ≤ gap ↔
    chunk * 16 - coord ≤ gap ∧ coord - (chunk * 16 + 15) ≤ gap := by
  rw [chunkGap, Nat.max_le, Int.toNat_le, Int.toNat_le]

theorem centerGap_eq_zero : layout.centerGap pos = 0 ↔ layout.centerBlock pos = true := by
  rw [centerGap, centerBlock, decide_eq_true_iff, ← Nat.le_zero, Nat.max_le, chunkGap_le,
    chunkGap_le]
  unfold blockToSectionCoord
  omega

theorem chunkGap_add_le (chunk coord : ℤ) {step : ℤ} (h : -1 ≤ step ∧ step ≤ 1) :
    chunkGap chunk (coord + step) ≤ chunkGap chunk coord + 1 := by
  obtain ⟨hlow, hhigh⟩ := chunkGap_le.1 (le_refl (chunkGap chunk coord))
  rw [chunkGap_le]
  push_cast
  omega

theorem centerGap_relative_le (pos : BlockCoords) (d : LightAxisDirection) :
    layout.centerGap (pos.relative d) ≤ layout.centerGap pos + 1 := by
  have hoffset : (-1 ≤ d.offset.1 ∧ d.offset.1 ≤ 1) ∧ -1 ≤ d.offset.2.2 ∧ d.offset.2.2 ≤ 1 := by
    cases d <;> decide
  unfold centerGap
  refine Nat.max_le.2 ⟨?_, ?_⟩
  · exact (chunkGap_add_le _ _ hoffset.1).trans (Nat.add_le_add_right (Nat.le_max_left _ _) 1)
  · exact (chunkGap_add_le _ _ hoffset.2).trans (Nat.add_le_add_right (Nat.le_max_right _ _) 1)

/-- The queues have room for the blocks that light from the centre chunk can reach. -/
theorem containsEncodedBlockPos_of_innerBlock (h : layout.innerBlock pos = true)
    (hgap : layout.centerGap pos ≤ maxLightLevel) : layout.containsEncodedBlockPos pos = true := by
  obtain ⟨_, hy⟩ := innerBlock_iff.1 h
  rw [centerGap, Nat.max_le, chunkGap_le, chunkGap_le] at hgap
  unfold maxLightLevel at hgap
  rw [containsEncodedBlockPos_iff]
  unfold encodedMinBlockX encodedMinBlockZ centerBlockX centerBlockZ cachedMinSectionY
    cachedSectionCount
  omega

end LightCacheLayout

namespace LightEngine

variable {S : Type*} (engine : LightEngine S)

def emission (pos : BlockCoords) : ℕ := engine.emittedLight (engine.blockState pos)

/-- The best level that the neighbours of a block give it. -/
def gathered (level : BlockCoords → ℕ) (pos : BlockCoords) : ℕ :=
  Finset.univ.sup fun d : LightAxisDirection =>
    if engine.blocks.occludes (engine.blockState (pos.relative d)) (engine.blockState pos)
      d.opposite.direction then 0
    else level (pos.relative d) - max (engine.blocks.lightDampening (engine.blockState pos)) 1

/-- Each inner block has the best of what its source and its neighbours give, and there is no light
elsewhere. -/
structure Balanced (source level : BlockCoords → ℕ) : Prop where
  level_le (pos : BlockCoords) : level pos ≤ maxLightLevel
  outside (pos : BlockCoords) : engine.layout.innerBlock pos = false → level pos = 0
  inside (pos : BlockCoords) : engine.layout.innerBlock pos = true →
    level pos = max (source pos) (engine.gathered level pos)

def innerSource (source : BlockCoords → ℕ) (pos : BlockCoords) : ℕ :=
  if engine.layout.innerBlock pos then source pos else 0

variable {engine} {source level field old : BlockCoords → ℕ}

theorem gathered_eq (houtside : ∀ pos, engine.layout.innerBlock pos = false → level pos = 0)
    {pos : BlockCoords} (hpos : engine.layout.innerBlock pos = true) :
    engine.gathered level pos = Finset.univ.sup fun d =>
      if (engine.flood engine.layout.innerBlock).opens pos d then
        level ((engine.flood engine.layout.innerBlock).next pos d) -
          (engine.flood engine.layout.innerBlock).cost pos
      else 0 := by
  refine Finset.sup_congr rfl fun d _ => ?_
  simp only [flood, hpos, Bool.true_and, Bool.and_eq_true, Bool.not_eq_true',
    LightAxisDirection.direction_opposite, LightBlocks.occludes_comm]
  cases hnext : engine.layout.innerBlock (pos.relative d) with
  | false => simp [houtside _ hnext]
  | true =>
    cases engine.blocks.occludes (engine.blockState pos) (engine.blockState (pos.relative d))
      d.direction with
    | false => rfl
    | true => rfl

theorem balanced_iff (hle : ∀ pos, level pos ≤ maxLightLevel) : engine.Balanced source level ↔
    (engine.flood engine.layout.innerBlock).Settled (engine.innerSource source) level := by
  rw [Medium.settled_iff]
  unfold Medium.best innerSource
  constructor
  · intro h pos
    cases hpos : engine.layout.innerBlock pos with
    | true => rw [if_pos rfl, ← gathered_eq h.outside hpos, h.inside pos hpos]
    | false =>
      rw [h.outside pos hpos]
      simp [flood, hpos]
  · intro h
    have houtside : ∀ pos, engine.layout.innerBlock pos = false → level pos = 0 := by
      intro pos hpos
      rw [h pos]
      simp [flood, hpos]
    refine ⟨hle, houtside, fun pos hpos => ?_⟩
    rw [gathered_eq houtside hpos, h pos, if_pos hpos]

theorem Balanced.unique (h : engine.Balanced source level) (h' : engine.Balanced source field) :
    level = field :=
  ((balanced_iff h.level_le).1 h).unique ((balanced_iff h'.level_le).1 h') h.level_le h'.level_le

theorem room_of_center {pos : BlockCoords} (hinner : engine.layout.innerBlock pos = true)
    (hcenter : engine.layout.centerBlock pos = true) :
    (engine.flood engine.layout.innerBlock).room pos = true :=
  containsEncodedBlockPos_of_innerBlock hinner
    ((centerGap_eq_zero.2 hcenter).le.trans (zero_le _))

theorem horizon (hold_le : ∀ pos, old pos ≤ maxLightLevel)
    (hold_link : ∀ pos d, (engine.flood engine.layout.innerBlock).opens pos d = true →
      engine.layout.centerBlock pos = false → engine.layout.centerBlock (pos.relative d) = false →
      old pos ≤ old (pos.relative d) +
        (engine.flood engine.layout.innerBlock).cost (pos.relative d))
    (hemission : ∀ pos, engine.layout.centerBlock pos = false →
      (engine.flood engine.layout.innerBlock).emission pos ≤ old pos) :
    (engine.flood engine.layout.innerBlock).Horizon maxLightLevel old engine.layout.centerGap := by
  have hfar : ∀ pos, 0 < engine.layout.centerGap pos → engine.layout.centerBlock pos = false := by
    intro pos hpos
    rw [eq_false_iff, ne_eq, ← centerGap_eq_zero]
    exact ne_of_gt hpos
  constructor
  · decide
  · exact centerGap_relative_le
  · intro pos d hopens hgap
    simp only [flood, and_eq_true] at hopens
    exact containsEncodedBlockPos_of_innerBlock hopens.1.2 hgap
  · exact hold_le
  · exact fun pos d hopens hpos hnext => hold_link pos d hopens (hfar _ hpos) (hfar _ hnext)
  · intro pos
    simp only [flood]
    split_ifs
    · exact engine.emittedLight_le _
    · exact zero_le _
  · exact fun pos hpos => hemission pos (hfar _ hpos)

variable (engine) in
def withSections (sections : LightSectionReadCache S) : LightEngine S :=
  { engine with sections := sections }

section Sections

variable {after : LightSectionReadCache S} {pos : BlockCoords} {d : LightAxisDirection}

section

variable (h : (engine.withSections after).blockState pos = engine.blockState pos)

include h

variable (present : BlockCoords → Bool)

theorem cost_withSections :
    ((engine.withSections after).flood present).cost pos = (engine.flood present).cost pos :=
  congrArg engine.blocks.getLightOpacity h

theorem emission_withSections : ((engine.withSections after).flood present).emission pos =
      (engine.flood present).emission pos := by
  simp only [flood, h]
  rfl

theorem opens_withSections (hnext : (engine.withSections after).blockState (pos.relative d) =
      engine.blockState (pos.relative d)) (present : BlockCoords → Bool) :
    ((engine.withSections after).flood present).opens pos d =
    (engine.flood present).opens pos d := by
  simp only [flood, h, hnext]
  rfl

end

theorem opensPlain_withSections (hnext : (engine.withSections after).blockState (pos.relative d) =
      engine.blockState (pos.relative d)) (present : BlockCoords → Bool) :
    ((engine.withSections after).flood present).opensPlain pos d =
      (engine.flood present).opensPlain pos d := by
  simp only [flood, hnext]
  rfl

theorem inner_of_opens {present : BlockCoords → Bool}
    (h : (engine.flood present).opens pos d = true) :
    present pos = true ∧ present (pos.relative d) = true := by
  simp only [flood, and_eq_true] at h
  exact h.1

section Changes

variable {positions : List BlockCoords} (hsame : ∀ pos ∉ positions,
  engine.layout.innerBlock pos = true →
    (engine.withSections after).blockState pos = engine.blockState pos)

include hsame

/-- What has given an unchanged block its level can take it away, and gives it still unless it has
changed. -/
theorem grounded_withSections
    (hgrounded : (engine.flood engine.layout.innerBlock).Grounded source level)
    (hpos : pos ∉ positions) : level pos ≤ source pos ∨ ∃ d,
      level pos + ((engine.withSections after).flood engine.layout.innerBlock).cost pos ≤
        level (pos.relative d) ∧
      ((engine.withSections after).flood engine.layout.innerBlock).opensPlain (pos.relative d)
        d.opposite = true ∧
      (pos.relative d ∉ positions →
        ((engine.withSections after).flood engine.layout.innerBlock).opens pos d = true) := by
  rcases hgrounded pos with hsource | ⟨d, hopens, hlink⟩
  · exact .inl hsource
  · obtain ⟨hinner, hnext⟩ := inner_of_opens hopens
    have hstate := hsame pos hpos hinner
    have hback : (engine.withSections after).blockState ((pos.relative d).relative d.opposite) =
        engine.blockState ((pos.relative d).relative d.opposite) := by
      rwa [BlockCoords.relative_opposite]
    refine .inr ⟨d, ?_, ?_, fun hnot => ?_⟩
    · rw [cost_withSections hstate]
      exact hlink
    · exact (opensPlain_withSections hback _).trans (Flood.opens_back hopens)
    · exact (opens_withSections hstate (hsame _ hnot hnext) _).trans hopens

theorem link_le_withSections
    (hclosed : (engine.flood engine.layout.innerBlock).Closed source level) (hpos : pos ∉ positions)
    (hnot : pos.relative d ∉ positions)
    (hopens : ((engine.withSections after).flood engine.layout.innerBlock).opens pos d = true) :
    level pos ≤ level (pos.relative d) +
      ((engine.withSections after).flood engine.layout.innerBlock).cost (pos.relative d) := by
  obtain ⟨hinner, hnext⟩ := inner_of_opens hopens
  have hstate := hsame _ hnot hnext
  have hlink := hclosed.link_le pos d
    ((opens_withSections (hsame pos hpos hinner) hstate _).symm.trans hopens)
  have hcost := cost_withSections hstate engine.layout.innerBlock
  exact hlink.trans (Nat.add_le_add_left hcost.ge _)

end Changes

end Sections

end LightEngine

section Windows

variable {S : Type*} (layout : LightCacheLayout)

def LightSectionReadCache.ofStates (states : BlockCoords → S) : LightSectionReadCache S where
  sections slot := some ⟨false, fun localIndex => states (layout.blockAt slot localIndex)⟩

def LightLayerEdit.ofLevels (level : BlockCoords → ℕ) : LightLayerEdit where
  sections slot :=
    if layout.innerBlock (layout.blockAt slot 0) then
      some (.visible fun localIndex => level (layout.blockAt slot localIndex))
    else none
  removedMissingSections _ := false

variable {layout} {pos : BlockCoords} {block : CachedLightBlock}

theorem LightEngine.blockState_ofStates (engine : LightEngine S) {states : BlockCoords → S}
    (hsections : engine.sections = .ofStates engine.layout states)
    (h : engine.layout.cachedBlock pos = some block) : engine.blockState pos = states pos := by
  rw [LightEngine.blockState_eq h]
  simp [LightEngine.getBlockState, LightSectionReadCache.getBlockState, hsections,
    LightSectionReadCache.ofStates, blockAt_cachedBlock h]

theorem LightCacheLayout.innerBlock_blockAt (h : layout.cachedBlock pos = some block) :
    layout.innerBlock (layout.blockAt block.sectionSlot 0) = layout.innerBlock pos := by
  have hsection : ∀ base : ℤ, ∀ offset : ℕ, offset < 16 →
      blockToSectionCoord (base * 16 + (0 : ℕ)) =
      blockToSectionCoord (base * 16 + (offset : ℤ)) := by
    intro base offset hoffset
    unfold blockToSectionCoord
    omega
  have hindex := localBlockIndex_eq pos
  rw [← (cachedBlock_eq_some.1 h).2.2] at hindex
  have hx : blockToSectionCoord (layout.blockAt block.sectionSlot 0).x =
      blockToSectionCoord (layout.blockAt block.sectionSlot block.localIndex).x :=
    hsection _ _ (by omega)
  have hy : blockToSectionCoord (layout.blockAt block.sectionSlot 0).y =
      blockToSectionCoord (layout.blockAt block.sectionSlot block.localIndex).y :=
    hsection _ _ (by omega)
  have hz : blockToSectionCoord (layout.blockAt block.sectionSlot 0).z =
      blockToSectionCoord (layout.blockAt block.sectionSlot block.localIndex).z :=
    hsection _ _ (by omega)
  rw [← blockAt_cachedBlock h]
  simp only [innerBlock, hx, hy, hz]

theorem LightCacheLayout.exists_cachedBlock_of_innerBlock (h : layout.innerBlock pos = true) :
    ∃ block, layout.cachedBlock pos = some block := by
  obtain ⟨hchunk, hy⟩ := innerBlock_iff.1 h
  have hchunk' : layout.containsChunkCoords (blockToSectionCoord pos.x)
      (blockToSectionCoord pos.z) = true := by
    rw [containsChunkCoords_iff]
    omega
  have hsection : layout.containsSectionY (blockToSectionCoord pos.y) = true := by
    rw [containsSectionY_iff]
    unfold cachedMinSectionY cachedSectionCount
    omega
  obtain ⟨slot, hslot⟩ := exists_sectionSlot hchunk' hsection
  exact ⟨⟨pos, slot, localBlockIndex pos⟩, cachedBlock_eq_some.2 ⟨hslot, rfl, rfl⟩⟩

theorem LightLayerEdit.presentAt_ofLevels (level : BlockCoords → ℕ) (pos : BlockCoords) :
    (ofLevels layout level).presentAt layout pos = layout.innerBlock pos := by
  cases h : layout.cachedBlock pos with
  | none =>
    cases hinner : layout.innerBlock pos with
    | false => simp only [presentAt, h]
    | true =>
      obtain ⟨block, hblock⟩ := exists_cachedBlock_of_innerBlock hinner
      rw [h] at hblock
      cases hblock
  | some block =>
    rw [presentAt_eq h, ← innerBlock_blockAt h]
    unfold hasNonMissing ofLevels
    cases hinner : layout.innerBlock (layout.blockAt block.sectionSlot 0) with
    | false => simp only [hinner, Bool.false_eq_true, if_false]
    | true => simp only [hinner, if_true, LightSection.isMissing, Bool.not_false]

theorem LightLayerEdit.levelAt_ofLevels (level : BlockCoords → ℕ) (pos : BlockCoords) :
    (ofLevels layout level).levelAt layout pos =
      if layout.innerBlock pos then level pos else 0 := by
  cases hinner : layout.innerBlock pos with
  | false =>
    rw [levelAt_of_not_present ((presentAt_ofLevels level pos).trans hinner)]
    rfl
  | true =>
    obtain ⟨block, h⟩ := exists_cachedBlock_of_innerBlock hinner
    rw [← innerBlock_blockAt h] at hinner
    rw [levelAt_eq h]
    simp [get, ofLevels, hinner, LightSection.get, blockAt_cachedBlock h]

/-- Blocks with an emission and a dampening, and without shapes. -/
def plainBlocks : LightBlocks (Fin 16 × Fin 16) where
  air := (0, 0)
  lightEmission state := state.1
  lightDampening state := state.2
  canOcclude _ := false
  useShapeForLightOcclusion _ := false
  occlusionShape _ := .empty
  lightDampening_le state := le_of_lt_succ state.2.isLt
  canOcclude_air := rfl

def smallLayout : LightCacheLayout := ⟨(0, 0), ⟨-1, 3, by decide, by decide⟩⟩

end Windows

end Steel
