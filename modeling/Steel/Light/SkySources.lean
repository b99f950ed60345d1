import Steel.Chunk.SectionCounts
import Steel.Lib.Surface
import Steel.Light.LightBlock

/-! # The lowest sky-light sources of a chunk

A cache holds, for every column of a chunk, the height of its lowest sky-light source. Filling the
cache finds the highest occluded edge, except that it does not look at the edge below the world and
at those between a section and an empty section below it.
-/

namespace Steel

open List Nat

/-- Arithmetic in 32 bits that tells when the result does not fit. -/
def checkedI32 (value : ℤ) : Option ℤ :=
  if -2 ^ 31 ≤ value ∧ value < 2 ^ 31 then some value else none

def VoxelShape.faceShapeOccludes (shape1 : VoxelShape) (shape1Face : Direction)
    (shape2 : VoxelShape) (shape2Face : Direction) : Bool :=
  if shape1.isShapeFullBlock || shape2.isShapeFullBlock then true
  else if shape1.isEmpty && shape2.isEmpty then false
  else
    let grid := shape1.projectShapeOntoGrid shape1Face ∅
    if grid.card = 256 then true
    else (shape2.projectShapeOntoGrid shape2Face grid).card = 256

def LightBlocks.lightFaceOccludes {S : Type*} (blocks : LightBlocks S) (fromState toState : S)
    (direction : Direction) : Bool :=
  (blocks.lightOcclusionShape fromState).faceShapeOccludes direction
    (blocks.lightOcclusionShape toState) direction.opposite

/-- The light properties of block states and what sections count of them. States that count as
air do nothing to light. -/
structure SkyBlocks extends LightBlocks BlockStateId where
  countsForState : BlockStateId → Option BlockStateSectionCounts
  isAir_air : ∃ counts, countsForState air = some counts ∧ counts.isAir = true
  lightDampening_of_isAir (state : BlockStateId) (counts : BlockStateSectionCounts)
    (hcounts : countsForState state = some counts) (hair : counts.isAir = true) :
    lightDampening state = 0
  canOcclude_of_isAir (state : BlockStateId) (counts : BlockStateSectionCounts)
    (hcounts : countsForState state = some counts) (hair : counts.isAir = true) :
    canOcclude state = false

def SkyBlocks.isEdgeOccluded (blocks : SkyBlocks) (topState bottomState : BlockStateId) : Bool :=
  if blocks.lightDampening bottomState ≠ 0 then true
  else blocks.lightFaceOccludes topState bottomState .down

def ChunkSection.isEmpty (s : ChunkSection) : Bool := s.nonEmptyBlockCount = 0

/-- `minY` is one below the world. -/
structure ChunkSkyLightSources where
  minY : ℤ
  heightmap : Fin 256 → ℤ

namespace ChunkSkyLightSources

def new (minY height : ℤ) : Option ChunkSkyLightSources :=
  if height ≤ 0 ∨ checkedI32 (minY - 1) = none ∨ checkedI32 (minY + height) = none then none
  else some ⟨minY - 1, fun _ => minY - 1⟩

theorem index_lt (x z : Fin 16) : (x : ℕ) + z * 16 < 256 := by omega

def index (x z : Fin 16) : Fin 256 := ⟨x + z * 16, index_lt x z⟩

variable (sources : ChunkSkyLightSources)

def get (index : Fin 256) : ℤ := sources.heightmap index

def set (index : Fin 256) (value : ℤ) : ChunkSkyLightSources :=
  { sources with heightmap := Function.update sources.heightmap index value }

variable (blocks : SkyBlocks) (sources : ChunkSkyLightSources)

def sectionYFromIndex (sectionIndex : ℕ) : ℤ := (sources.minY + 1) / 16 + sectionIndex

def sectionToBlockCoord (sectionY : ℤ) : ℤ := sectionY * 16

/-- Where the scan of a column is: the block above the next edge, and the height of the one below
it. -/
structure EdgeScan where
  topY : ℤ
  bottomY : ℤ
  topState : BlockStateId

/-- The loop over the blocks of a section. An edge that is found ends the scan. -/
def scanSection (states : BlockPalette) (x z : Fin 16) :
    List (Fin 16) → EdgeScan → Except ℤ EdgeScan
  | [], scan => .ok scan
  | y :: below, scan =>
    let bottomState := states.get x y z
    if blocks.isEdgeOccluded scan.topState bottomState then .error scan.topY
    else scanSection states x z below ⟨scan.bottomY, scan.bottomY - 1, bottomState⟩

def scanSections (x z : Fin 16) : List ChunkSection → EdgeScan → ℤ
  | [], _ => sources.minY
  | s :: below, scan =>
    if s.isEmpty then
      let topY := sectionToBlockCoord (sources.sectionYFromIndex below.length)
      scanSections x z below ⟨topY, topY - 1, blocks.air⟩
    else
      match scanSection blocks s.states x z (List.finRange 16).reverse scan with
      | .error topY => topY
      | .ok scan => scanSections x z below scan

def findLowestSourceY (sections : List ChunkSection) (topSectionIndex : ℕ) (x z : Fin 16) : ℤ :=
  let topY := sectionToBlockCoord (sources.sectionYFromIndex topSectionIndex + 1)
  scanSections blocks sources x z (sections.take (topSectionIndex + 1)).reverse
    ⟨topY, topY - 1, blocks.air⟩

def topSectionIndex : List ChunkSection → Option ℕ
  | [] => none
  | s :: sections =>
    match topSectionIndex sections with
    | some i => some (i + 1)
    | none => if s.isEmpty then none else some 0

theorem column_mod_lt (column : Fin 256) : (column : ℕ) % 16 < 16 := by omega

theorem column_div_lt (column : Fin 256) : (column : ℕ) / 16 < 16 := by omega

def fillFromSections (sections : List ChunkSection) : ChunkSkyLightSources :=
  match topSectionIndex sections with
  | none => { sources with heightmap := fun _ => sources.minY }
  | some top =>
    { sources with
      heightmap := fun column =>
        max (findLowestSourceY blocks sources sections top ⟨column % 16, column_mod_lt column⟩
          ⟨column / 16, column_div_lt column⟩) sources.minY }

section Update

variable (x z : Fin 16) (stateAt : Fin 16 → ℤ → Fin 16 → BlockStateId)

/-- The loop of the search below, for at most the given number of edges. -/
def searchBelow : ℕ → ℤ → BlockStateId → ℤ → ℤ
  | 0, _, _, _ => sources.minY
  | fuel + 1, topY, topState, bottomY =>
    if bottomY ≥ sources.minY then
      let bottomState := stateAt x bottomY z
      if blocks.isEdgeOccluded topState bottomState then topY
      else
        match checkedI32 (bottomY - 1) with
        | none => sources.minY
        | some nextBottomY => searchBelow fuel bottomY bottomState nextBottomY
    else sources.minY

def findLowestSourceBelow (startY : ℤ) (startState : BlockStateId) : ℤ :=
  match checkedI32 (startY - 1) with
  | none => sources.minY
  | some bottomY =>
    searchBelow blocks sources x z stateAt (startY - sources.minY).toNat startY startState bottomY

def updateEdge (oldTopEdgeY checkedEdgeY : ℤ) (topState : BlockStateId) (bottomY : ℤ)
    (bottomState : BlockStateId) : Bool × ChunkSkyLightSources :=
  if blocks.isEdgeOccluded topState bottomState then
    if checkedEdgeY > oldTopEdgeY then (true, sources.set (index x z) checkedEdgeY)
    else (false, sources)
  else if checkedEdgeY = oldTopEdgeY then
    (true, sources.set (index x z)
      (findLowestSourceBelow blocks sources x z stateAt bottomY bottomState))
  else (false, sources)

/-- Whether the edge of the column has been set, and the sources afterwards. -/
def update (y : ℤ) : Bool × ChunkSkyLightSources :=
  match checkedI32 (y + 1) with
  | none => (false, sources)
  | some upperEdgeY =>
    let currentLowestSourceY := sources.get (index x z)
    if upperEdgeY < currentLowestSourceY then (false, sources)
    else
      let topState := stateAt x upperEdgeY z
      let middleState := stateAt x y z
      let (changed, sources) := updateEdge blocks sources x z stateAt currentLowestSourceY
        upperEdgeY topState y middleState
      if changed then (true, sources)
      else
        match checkedI32 (y - 1) with
        | none => (false, sources)
        | some bottomY =>
          updateEdge blocks sources x z stateAt currentLowestSourceY y middleState bottomY
            (stateAt x bottomY z)

end Update

end ChunkSkyLightSources

open LightBlocks

namespace SkyBlocks

variable (blocks : SkyBlocks)

def IsAir (state : BlockStateId) : Prop :=
  ∃ counts, blocks.countsForState state = some counts ∧ counts.isAir = true

variable {blocks} {state state' bottomState : BlockStateId}

theorem IsAir.lightOcclusionShape_eq (h : blocks.IsAir state) :
    blocks.lightOcclusionShape state = .empty := by
  obtain ⟨counts, hcounts, hair⟩ := h
  rw [lightOcclusionShape, blocks.canOcclude_of_isAir state counts hcounts hair]
  rfl

theorem IsAir.isEdgeOccluded_congr (h : blocks.IsAir state) (h' : blocks.IsAir state')
    (bottomState : BlockStateId) :
    blocks.isEdgeOccluded state bottomState = blocks.isEdgeOccluded state' bottomState := by
  rw [isEdgeOccluded, isEdgeOccluded, lightFaceOccludes,
    lightFaceOccludes, h.lightOcclusionShape_eq, h'.lightOcclusionShape_eq]

theorem IsAir.isEdgeOccluded_eq_false (h : blocks.IsAir state)
    (hbottom : blocks.IsAir bottomState) : blocks.isEdgeOccluded state bottomState = false := by
  have hshape := hbottom.lightOcclusionShape_eq
  obtain ⟨counts, hcounts, hair⟩ := hbottom
  rw [isEdgeOccluded, blocks.lightDampening_of_isAir bottomState counts hcounts hair,
    lightFaceOccludes, h.lightOcclusionShape_eq, hshape]
  rfl

end SkyBlocks

namespace ChunkSkyLightSources

variable (blocks : SkyBlocks)

theorem offset_mod_lt (offset : ℕ) : offset % 16 < 16 := mod_lt _ (by decide)

/-- The block of a column at an offset from the bottom of the world, which air surrounds. -/
def cell (sections : List ChunkSection) (x z : Fin 16) (offset : ℕ) : BlockStateId :=
  match sections[offset / 16]? with
  | some s => s.states.get x ⟨offset % 16, offset_mod_lt offset⟩ z
  | none => blocks.air

def occludedEdge (sections : List ChunkSection) (x z : Fin 16) : ℕ → Bool
  | 0 => blocks.isEdgeOccluded (cell blocks sections x z 0) blocks.air
  | offset + 1 =>
    blocks.isEdgeOccluded (cell blocks sections x z (offset + 1)) (cell blocks sections x z offset)

/-- The edges that filling does not look at: at the bottom of the world, and at the top of an
empty section. -/
def skippedEdge (sections : List ChunkSection) (offset : ℕ) : Bool :=
  offset % 16 = 0 && (offset = 0 || (sections[offset / 16 - 1]?).any ChunkSection.isEmpty)

def shownEdge (sections : List ChunkSection) (x z : Fin 16) (offset : ℕ) : Bool :=
  occludedEdge blocks sections x z offset && !skippedEdge sections offset

def Counted (sections : List ChunkSection) : Prop :=
  ∀ s ∈ sections, s.isBuilding = false ∧ ∃ cube, s.Counted blocks.countsForState cube

variable {blocks} {sections : List ChunkSection} {x z : Fin 16}

variable {s : ChunkSection} {sources : ChunkSkyLightSources}

theorem cell_add {sectionIndex : ℕ} (hget : sections[sectionIndex]? = some s) (y : Fin 16) :
    cell blocks sections x z (16 * sectionIndex + y) = s.states.get x y z := by
  have hdiv : (16 * sectionIndex + y) / 16 = sectionIndex := by omega
  have hmod : (16 * sectionIndex + y) % 16 = y := by omega
  simp only [cell, hdiv, hget, hmod]

theorem isAir_of_isEmpty (hbuilding : s.isBuilding = false)
    (hcounted : ∃ cube, s.Counted blocks.countsForState cube) (hempty : s.isEmpty = true)
    (y : Fin 16) : blocks.IsAir (s.states.get x y z) := by
  obtain ⟨cube, hcounted⟩ := hcounted
  have hexact := hcounted.exact hbuilding .nonEmpty
  have hzero : (s.count .nonEmpty).toNat = 0 := by
    rw [ChunkSection.isEmpty, decide_eq_true_eq] at hempty
    rw [ChunkSection.count, hempty]
    rfl
  rw [hzero] at hexact
  rw [PalettedContainer.get_eq hcounted.represents]
  have hmem : cube y z x ∈ cube.flat := Cube.mem_flat.2 ⟨x, y, z, rfl⟩
  have hnone := countP_eq_zero.1 hexact.symm _ hmem
  obtain ⟨counts, hcounts⟩ := Option.isSome_iff_exists.1 (hcounted.registered _ hmem)
  rw [Trait.has_eq hcounts] at hnone
  exact ⟨counts, hcounts, by simpa [Trait.of] using hnone⟩

theorem isAir_cell_of_isEmpty (hcounted : Counted blocks sections) {offset : ℕ}
    (hempty : ∀ s, sections[offset / 16]? = some s → s.isEmpty = true) :
    blocks.IsAir (cell blocks sections x z offset) := by
  rw [cell]
  split
  · rename_i s hget
    obtain ⟨hbuilding, hcube⟩ := hcounted s (mem_of_getElem? hget)
    exact isAir_of_isEmpty hbuilding hcube (hempty s hget) _
  · exact blocks.isAir_air

theorem occludedEdge_eq_false (hcounted : Counted blocks sections) {offset : ℕ}
    (hempty : ∀ i, offset ≤ i → i ≤ offset + 1 → ∀ s, sections[i / 16]? = some s →
      s.isEmpty = true) : occludedEdge blocks sections x z (offset + 1) = false := by
  rw [occludedEdge]
  apply SkyBlocks.IsAir.isEdgeOccluded_eq_false
  · exact isAir_cell_of_isEmpty hcounted (hempty _ (le_succ _) (le_refl _))
  · exact isAir_cell_of_isEmpty hcounted (hempty _ (le_refl _) (le_succ _))

/-- A scan above an edge, with a block that stands for the one above it. -/
structure ScansAt (blocks : SkyBlocks) (sources : ChunkSkyLightSources)
    (sections : List ChunkSection) (x z : Fin 16) (offset : ℕ) (scan : EdgeScan) : Prop where
  topY : scan.topY = sources.minY + (offset + 1 : ℕ)
  bottomY : scan.bottomY = scan.topY - 1
  topState : ∀ bottomState, blocks.isEdgeOccluded scan.topState bottomState =
    blocks.isEdgeOccluded (cell blocks sections x z offset) bottomState

theorem scanSection_spec {sectionIndex : ℕ} (hget : sections[sectionIndex]? = some s)
    (hempty : s.isEmpty = false) (layers : List (Fin 16)) :
    ∀ {scan : EdgeScan}, layers.map Fin.val = (List.range layers.length).reverse →
      ScansAt blocks sources sections x z (16 * sectionIndex + layers.length) scan →
      (∃ h, scanSection blocks s.states x z layers scan = .error (sources.minY + (h : ℕ)) ∧
        IsSurface (shownEdge blocks sections x z) (16 * sectionIndex + layers.length + 1) h) ∨
      ∃ scan', scanSection blocks s.states x z layers scan = .ok scan' ∧
        ScansAt blocks sources sections x z (16 * sectionIndex) scan' ∧
        ∀ i, 16 * sectionIndex < i → i ≤ 16 * sectionIndex + layers.length →
          shownEdge blocks sections x z i = false := by
  induction layers with
  | nil =>
    intro scan _ h
    refine .inr ⟨scan, rfl, h, fun i hlt hle => ?_⟩
    simp only [length_nil] at hle
    omega
  | cons y layers ih =>
    intro scan hlayers h
    rw [length_cons, range_succ, reverse_append, map_cons] at hlayers
    obtain ⟨hy, hrest⟩ := List.cons.inj hlayers
    rw [length_cons] at h ⊢
    have hcell : cell blocks sections x z (16 * sectionIndex + layers.length) =
        s.states.get x y z := by
      rw [← hy, cell_add hget]
    have hshown : shownEdge blocks sections x z (16 * sectionIndex + (layers.length + 1)) =
        blocks.isEdgeOccluded scan.topState (s.states.get x y z) := by
      have hskipped : skippedEdge sections (16 * sectionIndex + (layers.length + 1)) = false := by
        rw [skippedEdge]
        by_cases htop : layers.length = 15
        · have hdiv : (16 * sectionIndex + (layers.length + 1)) / 16 - 1 = sectionIndex := by omega
          rw [hdiv, hget, Option.any_some, hempty, Bool.or_false]
          simp
        · have hmod : (16 * sectionIndex + (layers.length + 1)) % 16 ≠ 0 := by omega
          rw [decide_eq_false hmod, Bool.false_and]
      rw [shownEdge, hskipped, Bool.not_false, Bool.and_true, h.topState, ← hcell]
      rfl
    rw [scanSection]
    by_cases hoccluded : blocks.isEdgeOccluded scan.topState (s.states.get x y z) = true
    · rw [if_pos hoccluded, h.topY]
      refine .inl ⟨_, rfl, .of_top (lt_succ_self _) (hshown.trans hoccluded) ?_⟩
      intro i hlt hle
      omega
    · rw [if_neg hoccluded]
      have hnext : ScansAt blocks sources sections x z (16 * sectionIndex + layers.length)
          ⟨scan.bottomY, scan.bottomY - 1, s.states.get x y z⟩ := by
        constructor
        · rw [h.bottomY, h.topY]
          push_cast
          ring
        · rfl
        · intro bottomState
          rw [hcell]
      have habove := hshown.trans (Bool.eq_false_of_not_eq_true hoccluded)
      rcases ih hrest hnext with ⟨h, hscan, hs⟩ | ⟨scan', hscan, hat, hclear⟩
      · refine .inl ⟨h, hscan, hs.of_shorter (by omega) fun i hle hlt => ?_⟩
        obtain rfl : i = 16 * sectionIndex + (layers.length + 1) := by omega
        exact habove
      · refine .inr ⟨scan', hscan, hat, fun i hlt hle => ?_⟩
        rcases eq_or_lt_of_le hle with rfl | hle
        · exact habove
        · exact hclear i hlt (by omega)

/-- The scan of the sections below an edge finds the highest edge that is shown. -/
theorem scanSections_spec (hcounted : Counted blocks sections)
    (hbase : ∀ i : ℕ, sectionToBlockCoord (sources.sectionYFromIndex i) =
      sources.minY + (16 * i + 1 : ℕ)) (count : ℕ) :
    ∀ {scan : EdgeScan}, count ≤ sections.length →
      ScansAt blocks sources sections x z (16 * count) scan →
      ∃ h : ℕ, scanSections blocks sources x z (sections.take count).reverse scan =
        sources.minY + h ∧ IsSurface (shownEdge blocks sections x z) (16 * count + 1) h := by
  induction count with
  | zero =>
    intro scan _ _
    refine ⟨0, by simp [scanSections], .of_unmarked fun i hi => ?_⟩
    obtain rfl : i = 0 := by omega
    simp [shownEdge, skippedEdge]
  | succ count ih =>
    intro scan hcount h
    obtain ⟨s, hget⟩ : ∃ s, sections[count]? = some s := ⟨_, List.getElem?_eq_getElem hcount⟩
    obtain ⟨hbuilding, hcube⟩ := hcounted s (mem_of_getElem? hget)
    have htake : (sections.take (count + 1)).reverse = s :: (sections.take count).reverse := by
      rw [take_add_one, hget, Option.toList_some, reverse_append]
      rfl
    have hlength : (sections.take count).reverse.length = count := by
      rw [length_reverse, length_take, min_eq_left (le_of_succ_le hcount)]
    rw [htake, scanSections, hlength]
    by_cases hempty : s.isEmpty = true
    · rw [if_pos hempty]
      have hair (i : ℕ) (hle : 16 * count ≤ i) (hlt : i < 16 * count + 16) :
          blocks.IsAir (cell blocks sections x z i) := by
        refine isAir_cell_of_isEmpty hcounted fun s' hget' => ?_
        rw [show i / 16 = count by omega, hget] at hget'
        cases hget'
        exact hempty
      have hat : ScansAt blocks sources sections x z (16 * count)
          ⟨sectionToBlockCoord (sources.sectionYFromIndex count),
            sectionToBlockCoord (sources.sectionYFromIndex count) - 1, blocks.air⟩ := by
        constructor
        · exact hbase count
        · rfl
        · exact SkyBlocks.IsAir.isEdgeOccluded_congr blocks.isAir_air
            (hair _ (le_refl _) (by omega))
      obtain ⟨h', hscan, hs⟩ := ih (le_of_succ_le hcount) hat
      refine ⟨h', hscan, hs.of_shorter (by omega) fun i hle hlt => ?_⟩
      by_cases htop : i = 16 * count + 16
      · have hskipped : skippedEdge sections i = true := by
          rw [skippedEdge, htop, show (16 * count + 16) / 16 - 1 = count by omega, hget,
            Option.any_some, hempty, Bool.or_true]
          simp
        rw [shownEdge, hskipped, Bool.not_true, Bool.and_false]
      · obtain ⟨k, rfl⟩ : ∃ k, i = k + 1 := ⟨i - 1, by omega⟩
        have hclear : occludedEdge blocks sections x z (k + 1) = false :=
          SkyBlocks.IsAir.isEdgeOccluded_eq_false (hair _ (by omega) (by omega))
            (hair _ (by omega) (by omega))
        rw [shownEdge, hclear, Bool.false_and]
    · rw [if_neg hempty]
      rcases scanSection_spec hget (Bool.eq_false_of_not_eq_true hempty)
        (List.finRange 16).reverse (by decide) h with ⟨h', hscan, hs⟩ | ⟨scan', hscan, hat, hclear⟩
      · rw [hscan]
        exact ⟨h', rfl, hs⟩
      · rw [hscan]
        obtain ⟨h', hrest, hs⟩ := ih (le_of_succ_le hcount) hat
        refine ⟨h', hrest, hs.of_shorter (by omega) fun i hle hlt => ?_⟩
        exact hclear i (by omega) (by simp; omega)

theorem topSectionIndex_spec (sections : List ChunkSection) : match topSectionIndex sections with
    | none => ∀ (i : ℕ) (s : ChunkSection), sections[i]? = some s → s.isEmpty = true
    | some top => top < sections.length ∧ ∀ (i : ℕ) (s : ChunkSection), top < i →
        sections[i]? = some s → s.isEmpty = true := by
  induction sections with
  | nil =>
    intro i s hget
    cases hget
  | cons s sections ih =>
    rw [topSectionIndex]
    cases htop : topSectionIndex sections with
    | some top =>
      rw [htop] at ih
      refine ⟨succ_lt_succ ih.1, fun i s' hlt hget => ?_⟩
      obtain ⟨i, rfl⟩ : ∃ k, i = k + 1 := ⟨i - 1, by omega⟩
      exact ih.2 i s' (lt_of_succ_lt_succ hlt) hget
    | none =>
      rw [htop] at ih
      have hrest (i : ℕ) (s' : ChunkSection) (hlt : 0 < i) (hget : (s :: sections)[i]? = some s') :
          s'.isEmpty = true := by
        obtain ⟨i, rfl⟩ : ∃ k, i = k + 1 := ⟨i - 1, by omega⟩
        exact ih i s' hget
      dsimp only
      split_ifs with hempty
      · rintro (_ | i) s' hget
        · cases hget
          exact hempty
        · exact ih i s' hget
      · exact ⟨succ_pos _, hrest⟩

theorem fillFromSections_spec (hcounted : Counted blocks sections)
    (hbase : ∀ i : ℕ, sectionToBlockCoord (sources.sectionYFromIndex i) =
      sources.minY + (16 * i + 1 : ℕ)) (x z : Fin 16) :
    ∃ h : ℕ, (fillFromSections blocks sources sections).get (index x z) = sources.minY + h ∧
      IsSurface (shownEdge blocks sections x z) (16 * sections.length + 1) h := by
  have hcolumn : (⟨(index x z : ℕ) % 16, by omega⟩ : Fin 16) = x ∧
      (⟨(index x z : ℕ) / 16, by omega⟩ : Fin 16) = z := by
    constructor <;> (ext; simp only [index]; omega)
  have htop := topSectionIndex_spec sections
  rw [fillFromSections]
  cases hindex : topSectionIndex sections with
  | none =>
    rw [hindex] at htop
    refine ⟨0, by simp [get], .of_unmarked ?_⟩
    rintro (_ | i) hi
    · simp [shownEdge, skippedEdge]
    · have hclear : occludedEdge blocks sections x z (i + 1) = false :=
        occludedEdge_eq_false hcounted fun _ _ _ s hget => htop _ s hget
      rw [shownEdge, hclear, Bool.false_and]
  | some top =>
    rw [hindex] at htop
    obtain ⟨hlt, habove⟩ := htop
    have hair (i : ℕ) (hi : 16 * (top + 1) ≤ i) : blocks.IsAir (cell blocks sections x z i) :=
      isAir_cell_of_isEmpty hcounted fun s hget => habove _ s (by omega) hget
    have hbase' : sectionToBlockCoord (sources.sectionYFromIndex top + 1) =
        sources.minY + (16 * (top + 1) + 1 : ℕ) := by
      rw [← hbase (top + 1)]
      simp only [sectionYFromIndex, sectionToBlockCoord]
      push_cast
      ring
    have hat : ScansAt blocks sources sections x z (16 * (top + 1))
        ⟨sectionToBlockCoord (sources.sectionYFromIndex top + 1),
          sectionToBlockCoord (sources.sectionYFromIndex top + 1) - 1, blocks.air⟩ := by
      constructor
      · exact hbase'
      · rfl
      · exact SkyBlocks.IsAir.isEdgeOccluded_congr blocks.isAir_air (hair _ (le_refl _))
    obtain ⟨h, hscan, hs⟩ := scanSections_spec hcounted hbase (top + 1) hlt hat
    refine ⟨h, ?_, hs.of_shorter (by omega) fun i hle _ => ?_⟩
    · have hfind : findLowestSourceY blocks sources sections top x z = sources.minY + h := hscan
      dsimp only [get]
      rw [hcolumn.1, hcolumn.2, hfind, max_eq_left (by omega)]
    · obtain ⟨k, rfl⟩ : ∃ k, i = k + 1 := ⟨i - 1, by omega⟩
      have hclear : occludedEdge blocks sections x z (k + 1) = false :=
        SkyBlocks.IsAir.isEdgeOccluded_eq_false (hair _ (by omega)) (hair _ (by omega))
      rw [shownEdge, hclear, Bool.false_and]

end ChunkSkyLightSources

end Steel
