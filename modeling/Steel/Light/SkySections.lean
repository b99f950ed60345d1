import Steel.Light.LightField

/-! # Sections of sky light

Sky light has no data where there is only sky. The sections around a change are given data before
light is spread.
-/

namespace Steel

open LightCacheLayout Function

structure SectionCoords where
  x : ℤ
  y : ℤ
  z : ℤ
  deriving DecidableEq

namespace LightCacheLayout

variable (layout : LightCacheLayout)

def sectionSlot (pos : SectionCoords) : Option ℕ := layout.sectionSlotByCoords pos.x pos.y pos.z

end LightCacheLayout

namespace LightSectionRange

variable (range : LightSectionRange)

def maxSectionYExclusive : ℤ := range.minSectionY + range.sectionCount

def minChunkSectionY : ℤ := range.minSectionY + 1

def maxChunkSectionYExclusive : ℤ := range.maxSectionYExclusive - 1

def sectionIndex (sectionY : ℤ) : Option ℕ :=
  if range.minSectionY ≤ sectionY ∧ sectionY < range.maxSectionYExclusive then
    some (sectionY - range.minSectionY).toNat
  else none

end LightSectionRange

namespace LightSection

def setNonMissing : LightSection → LightSection
  | missing => visible fun _ => 0
  | visible data => visible data
  | internal data => internal data

def fill (level : ℕ) : LightSection → LightSection
  | missing => visible fun _ => level
  | visible _ => visible fun _ => level
  | internal _ => internal fun _ => level

def lowerRow : LightSection → Option LightSectionData
  | missing => none
  | visible data => some fun column => data (column % 256)
  | internal data => some fun column => data (column % 256)

def extrudeLowerRow (row : Option LightSectionData) : LightSection → LightSection
  | missing => visible fun localIndex => (row.map fun data => data (localIndex % 256)).getD 0
  | visible _ => visible fun localIndex => (row.map fun data => data (localIndex % 256)).getD 0
  | internal _ =>
    match row with
    | none => visible fun _ => 0
    | some data => internal fun localIndex => data (localIndex % 256)

end LightSection

namespace LightLayerEdit

variable (layout : LightCacheLayout) (edit : LightLayerEdit) (pos : SectionCoords)

def sectionEdit : Option LightSection :=
  match layout.sectionSlot pos with
  | none => none
  | some slot => edit.sections slot

def hasNonMissingSection : Bool :=
  match edit.sectionEdit layout pos with
  | none => false
  | some lightSection => !lightSection.isMissing

def isSectionMissing : Bool :=
  match edit.sectionEdit layout pos with
  | none => false
  | some lightSection => lightSection.isMissing

def hasCachedSection : Bool := (edit.sectionEdit layout pos).isSome

def rewriteMissingSectionsForSkylight : LightLayerEdit where
  sections slot := (edit.sections slot).filter fun lightSection => !lightSection.isMissing
  removedMissingSections slot := edit.removedMissingSections slot ||
    (edit.sections slot).any fun lightSection => lightSection.isMissing

def materializeRemovedMissingSection : Option LightLayerEdit :=
  match layout.sectionSlot pos with
  | none => none
  | some slot =>
    if (edit.sections slot).isSome then some edit
    else if edit.removedMissingSections slot then
      some { edit with sections := update edit.sections slot (some .missing) }
    else none

def mapSection (f : LightSection → LightSection) : LightLayerEdit :=
  match layout.sectionSlot pos with
  | none => edit
  | some slot =>
    { edit with sections := update edit.sections slot ((edit.sections slot).map f) }

def setSectionNonMissing : LightLayerEdit :=
  edit.mapSection layout pos .setNonMissing

def fillSection (level : ℕ) : LightLayerEdit :=
  edit.mapSection layout pos (.fill level)

def extrudeLowerFromFirstSectionAbove : LightLayerEdit :=
  let above := (List.range (layout.range.maxSectionYExclusive - (pos.y + 1)).toNat).findSome?
    fun i => (edit.sectionEdit layout ⟨pos.x, pos.y + 1 + i, pos.z⟩).filter fun lightSection =>
      !lightSection.isMissing
  match above with
  | none => edit
  | some lightSection => edit.mapSection layout pos (.extrudeLowerRow lightSection.lowerRow)

end LightLayerEdit

/-- The engine of sky light, and which sections are known to be empty. -/
structure SkyLightEngine (S : Type*) where
  blocks : LightBlocks S
  layout : LightCacheLayout
  sections : LightSectionReadCache S
  sectionEmpty : SectionCoords → Option Bool
  lightSectionEmpty : SectionCoords → Option Bool

structure SkyLightContext extends LightContext where
  missingSectionChecked : ℕ → Bool

namespace SkyLightEngine

variable {S : Type*} (sky : SkyLightEngine S)

def engine : LightEngine S where
  blocks := sky.blocks
  layout := sky.layout
  sections := sky.sections
  emittedLight _ := 0
  emittedLight_le _ := Nat.zero_le _

def hasNonEmptySection (pos : SectionCoords) : Bool :=
  match sky.layout.sectionSlot pos with
  | none => false
  | some slot => (sky.sections.sections slot).any fun readSection => !readSection.isEmpty

def sectionIsNonEmpty (pos : SectionCoords) : Bool :=
  match sky.sectionEmpty pos with
  | some empty => !empty
  | none =>
    match sky.lightSectionEmpty pos with
    | some empty => !empty
    | none => sky.hasNonEmptySection pos

/-- The highest section of a column that is not empty, the one below all if there is none. -/
def highestNonEmptySection (x z : ℤ) : ℤ :=
  let range := sky.layout.range
  ((List.range (range.maxChunkSectionYExclusive - range.minChunkSectionY).toNat).findSome? fun i =>
    if sky.sectionIsNonEmpty ⟨x, range.maxChunkSectionYExclusive - 1 - i, z⟩ then
      some (range.maxChunkSectionYExclusive - 1 - i)
    else none).getD (range.minSectionY - 1)

def initLightSection (pos : SectionCoords) (extrude initRemoved : Bool)
    (context : SkyLightContext) :
    SkyLightContext :=
  let admitted :=
    if context.light.hasCachedSection sky.layout pos then some context.light
    else if initRemoved then context.light.materializeRemovedMissingSection sky.layout pos
    else none
  match admitted with
  | none => context
  | some light =>
    if !light.isSectionMissing sky.layout pos then { context with light := light }
    else if sky.highestNonEmptySection pos.x pos.z < pos.y then
      { context with
        light := (light.setSectionNonMissing sky.layout pos).fillSection sky.layout pos
          maxLightLevel }
    else if extrude then
      { context with light := light.extrudeLowerFromFirstSectionAbove sky.layout pos }
    else { context with light := light.setSectionNonMissing sky.layout pos }

def neighborOffsets : List (ℤ × ℤ) := [-1, 0, 1].flatMap fun z => [-1, 0, 1].map fun x => (x, z)

/-- Gives the sections of a chunk and its neighbours data if one of them has it. -/
def initNeighborSections (chunkX chunkZ sectionY : ℤ) (extrudeInitialized : Bool)
    (context : SkyLightContext) : SkyLightContext :=
  if neighborOffsets.any fun (x, z) =>
      context.light.hasNonMissingSection sky.layout ⟨chunkX + x, sectionY, chunkZ + z⟩ then
    neighborOffsets.foldl (fun context (x, z) =>
      sky.initLightSection ⟨chunkX + x, sectionY, chunkZ + z⟩
        (if x = 0 ∧ z = 0 then extrudeInitialized else true) true context) context
  else context

def checkMissingSection (chunkX chunkZ sectionY : ℤ) (extrudeInitialized : Bool)
    (context : SkyLightContext) : SkyLightContext :=
  match sky.layout.range.sectionIndex sectionY with
  | none => context
  | some index =>
    if context.missingSectionChecked index then context
    else sky.initNeighborSections chunkX chunkZ sectionY extrudeInitialized { context with
      missingSectionChecked := update context.missingSectionChecked index true }

def centerPositions (positions : List BlockCoords) : List BlockCoords :=
  positions.filter sky.layout.centerBlock

def initializeChangedSections (positions : List BlockCoords) (context : SkyLightContext) :
    SkyLightContext :=
  let sectionYs :=
    ((sky.centerPositions positions).map fun pos => blockToSectionCoord pos.y).eraseDups
  sectionYs.foldl (fun context sectionY =>
    if !sky.hasNonEmptySection ⟨sky.layout.centerChunk.1, sectionY, sky.layout.centerChunk.2⟩ then
      context
    else
      neighborOffsets.foldl (fun context (x, z) =>
        [1, 0, -1].foldl (fun context y =>
          sky.initLightSection ⟨sky.layout.centerChunk.1 + x, sectionY + y,
            sky.layout.centerChunk.2 + z⟩ true false context) context) context) context

end SkyLightEngine

namespace LightLayerEdit

variable {layout : LightCacheLayout} {edit : LightLayerEdit}

/-- All sections that were admitted have data, and they are the inner ones. -/
structure Ready (layout : LightCacheLayout) (edit : LightLayerEdit) : Prop where
  admitted : ∀ slot lightSection, edit.sections slot = some lightSection →
    lightSection.isMissing = false
  present (pos : BlockCoords) : edit.presentAt layout pos = layout.innerBlock pos

theorem hasNonMissingSection_eq (pos : BlockCoords) : edit.hasNonMissingSection layout
    ⟨blockToSectionCoord pos.x, blockToSectionCoord pos.y, blockToSectionCoord pos.z⟩ =
      edit.presentAt layout pos := by
  unfold hasNonMissingSection presentAt sectionEdit sectionSlot
    cachedBlock
  cases layout.sectionSlotByCoords (blockToSectionCoord pos.x) (blockToSectionCoord pos.y)
    (blockToSectionCoord pos.z) with
  | none => rfl
  | some slot => rfl

theorem rewrite_sections (slot : ℕ) : edit.rewriteMissingSectionsForSkylight.sections slot =
    (edit.sections slot).filter fun lightSection => !lightSection.isMissing := rfl

variable (block : CachedLightBlock)

theorem rewrite_get : edit.rewriteMissingSectionsForSkylight.get block = edit.get block := by
  unfold get
  rw [rewrite_sections]
  cases edit.sections block.sectionSlot with
  | none => rfl
  | some lightSection => cases lightSection <;> rfl

theorem rewrite_hasNonMissing :
    edit.rewriteMissingSectionsForSkylight.hasNonMissing block = edit.hasNonMissing block := by
  unfold hasNonMissing
  rw [rewrite_sections]
  cases edit.sections block.sectionSlot with
  | none => rfl
  | some lightSection => cases lightSection <;> rfl

theorem rewrite_levelAt : edit.rewriteMissingSectionsForSkylight.levelAt layout =
    edit.levelAt layout := by
  funext pos
  unfold levelAt
  cases layout.cachedBlock pos with
  | none => rfl
  | some block => exact rewrite_get block

theorem ready_rewrite (hpresent : ∀ pos, edit.presentAt layout pos = layout.innerBlock pos) :
    Ready layout edit.rewriteMissingSectionsForSkylight where
  admitted slot lightSection h := by
    obtain ⟨_, hpresent⟩ := Option.filter_eq_some_iff.1 h
    simpa using hpresent
  present pos := by
    rw [← hpresent pos]
    unfold presentAt
    cases layout.cachedBlock pos with
    | none => rfl
    | some block => exact rewrite_hasNonMissing block

theorem Ready.isSectionMissing (h : Ready layout edit) (pos : SectionCoords) :
    edit.isSectionMissing layout pos = false := by
  unfold LightLayerEdit.isSectionMissing sectionEdit
  cases layout.sectionSlot pos with
  | none => rfl
  | some slot =>
    simp only
    cases hsection : edit.sections slot with
    | none => rfl
    | some lightSection => exact h.admitted slot lightSection hsection

theorem hasCachedSection_of_nonMissing {pos : SectionCoords}
    (h : edit.hasNonMissingSection layout pos = true) :
    edit.hasCachedSection layout pos = true := by
  unfold hasNonMissingSection at h
  unfold hasCachedSection
  cases hsection : edit.sectionEdit layout pos with
  | none => simp [hsection] at h
  | some lightSection => rfl

theorem blockToSectionCoord_mul (coord : ℤ) : blockToSectionCoord (coord * 16) = coord := by
  unfold blockToSectionCoord
  omega

theorem Ready.hasCachedSection (h : Ready layout edit) {x z sectionY : ℤ}
    (hx : -1 ≤ x ∧ x ≤ 1) (hz : -1 ≤ z ∧ z ≤ 1)
    (hy : layout.range.minSectionY ≤ sectionY ∧ sectionY < layout.range.maxSectionYExclusive) :
    edit.hasCachedSection layout ⟨layout.centerChunk.1 + x, sectionY, layout.centerChunk.2 + z⟩ =
      true := by
  have hpresent := h.present
    ⟨(layout.centerChunk.1 + x) * 16, sectionY * 16, (layout.centerChunk.2 + z) * 16⟩
  have hinner : layout.innerBlock
      ⟨(layout.centerChunk.1 + x) * 16, sectionY * 16, (layout.centerChunk.2 + z) * 16⟩ = true := by
    rw [innerBlock_iff]
    simp only [blockToSectionCoord_mul]
    unfold LightSectionRange.maxSectionYExclusive at hy
    omega
  rw [hinner, ← hasNonMissingSection_eq] at hpresent
  simp only [blockToSectionCoord_mul] at hpresent
  exact hasCachedSection_of_nonMissing hpresent

end LightLayerEdit

namespace SkyLightEngine

variable {S : Type*} {sky : SkyLightEngine S} {context : SkyLightContext}

theorem initLightSection_of_ready (h : context.light.Ready sky.layout) {pos : SectionCoords}
    {extrude initRemoved : Bool}
    (hcached : initRemoved = false ∨ context.light.hasCachedSection sky.layout pos = true) :
    sky.initLightSection pos extrude initRemoved context = context := by
  unfold initLightSection
  by_cases hc : context.light.hasCachedSection sky.layout pos = true
  · simp [hc, h.isSectionMissing pos]
  · simp [hc, hcached.resolve_right hc]

theorem mem_neighborOffsets {offset : ℤ × ℤ} (h : offset ∈ neighborOffsets) :
    (-1 ≤ offset.1 ∧ offset.1 ≤ 1) ∧ -1 ≤ offset.2 ∧ offset.2 ≤ 1 := by
  revert offset
  decide

theorem foldl_eq_self {α : Type*} (items : List α) (init : SkyLightContext → α → SkyLightContext)
    (hinit : ∀ item ∈ items, init context item = context) : items.foldl init context = context := by
  induction items with
  | nil => rfl
  | cons item items ih =>
    rw [List.foldl_cons, hinit item List.mem_cons_self]
    exact ih fun item' hitem' => hinit item' (List.mem_cons_of_mem _ hitem')

section

variable (h : context.light.Ready sky.layout)

include h

theorem initNeighborSections_of_ready {sectionY : ℤ} (hy : sky.layout.range.minSectionY ≤ sectionY ∧
      sectionY < sky.layout.range.maxSectionYExclusive) (extrude : Bool) :
    sky.initNeighborSections sky.layout.centerChunk.1 sky.layout.centerChunk.2 sectionY extrude
      context = context := by
  unfold initNeighborSections
  split_ifs
  · refine foldl_eq_self _ _ ?_
    rintro ⟨x, z⟩ hoffset
    obtain ⟨hx, hz⟩ := mem_neighborOffsets hoffset
    exact initLightSection_of_ready h (.inr (h.hasCachedSection hx hz hy))
  · rfl

theorem checkMissingSection_of_ready (sectionY : ℤ) (extrude : Bool) :
    (sky.checkMissingSection sky.layout.centerChunk.1 sky.layout.centerChunk.2 sectionY extrude
      context).toLightContext = context.toLightContext := by
  unfold checkMissingSection LightSectionRange.sectionIndex
  split_ifs with hy
  · simp only
    split_ifs with hchecked
    · rfl
    · rw [initNeighborSections_of_ready (by exact h) hy]
  · rfl

theorem initializeChangedSections_of_ready
    (positions : List BlockCoords) : sky.initializeChangedSections positions context = context := by
  unfold initializeChangedSections
  refine foldl_eq_self _ _ fun sectionY _ => ?_
  split_ifs
  · rfl
  · refine foldl_eq_self _ _ ?_
    rintro ⟨x, z⟩ _
    exact foldl_eq_self _ _ fun y _ => initLightSection_of_ready h (.inl rfl)

end

end SkyLightEngine

end Steel
