import Mathlib.Data.Fintype.Prod
import Steel.Utils.ChunkPos

/-! # Blocks and light

What a block does to light: what it emits, how much it dampens, and which of its faces let nothing
through.
-/

namespace Steel

open Finset (empty_union univ)

def maxLightLevel : ℕ := 15

def minLightOpacity : ℕ := 1

def lightBlocked : ℕ := maxLightLevel + 1

abbrev FaceGrid := Finset (Fin 16 × Fin 16)

/-- A box of a shape. It covers the cells of those faces that it touches, and an empty one covers
none. -/
structure BlockLocalAabb where
  isEmpty : Bool
  covers : Direction → FaceGrid
  covers_of_isEmpty : isEmpty = true → ∀ face, covers face = ∅

/-- A shape, and whether it fills the block. -/
structure VoxelShape where
  boxes : List BlockLocalAabb
  isShapeFullBlock : Bool
  not_full_of_isEmpty : boxes.all (·.isEmpty) = true → isShapeFullBlock = false

namespace VoxelShape

def empty : VoxelShape := ⟨[], false, fun _ => rfl⟩

variable (shape : VoxelShape)

def isEmpty : Bool := shape.boxes.all (·.isEmpty)

/-- `project_shape_onto_grid`. The coverage count is the number of cells. -/
def projectShapeOntoGrid (face : Direction) (grid : FaceGrid) : FaceGrid :=
  shape.boxes.foldl (fun grid aabb => grid ∪ aabb.covers face) grid

def mergedFaceOccludes (shape1 shape2 : VoxelShape) (direction : Direction) : Bool :=
  if shape1.isShapeFullBlock || shape2.isShapeFullBlock then true
  else if shape1.isEmpty && shape2.isEmpty then false
  else
    let grid := shape1.projectShapeOntoGrid direction ∅
    if grid.card = 256 then true
    else (shape2.projectShapeOntoGrid direction.opposite grid).card = 256

def face (direction : Direction) : FaceGrid :=
  shape.projectShapeOntoGrid direction ∅

theorem foldl_union (boxes : List BlockLocalAabb) (direction : Direction) (grid : FaceGrid) :
    boxes.foldl (fun grid aabb => grid ∪ aabb.covers direction) grid =
      grid ∪ boxes.foldl (fun grid aabb => grid ∪ aabb.covers direction) ∅ := by
  induction boxes generalizing grid with
  | nil => simp
  | cons aabb boxes ih =>
    rw [List.foldl_cons, List.foldl_cons, ih, ih (∅ ∪ _), empty_union, Finset.union_assoc]

theorem projectShapeOntoGrid_eq (direction : Direction) (grid : FaceGrid) :
    shape.projectShapeOntoGrid direction grid = grid ∪ shape.face direction :=
  foldl_union shape.boxes direction grid

theorem card_eq_iff {grid : FaceGrid} : grid.card = 256 ↔ grid = univ := by
  rw [← Finset.card_eq_iff_eq_univ]
  simp

theorem face_of_isEmpty {shape : VoxelShape} (h : shape.isEmpty = true) (direction : Direction) :
    shape.face direction = ∅ := by
  have hboxes : ∀ boxes : List BlockLocalAabb, boxes.all (·.isEmpty) = true →
      boxes.foldl (fun grid aabb => grid ∪ aabb.covers direction) ∅ = (∅ : FaceGrid) := by
    intro boxes hempty
    induction boxes with
    | nil => rfl
    | cons aabb boxes ih =>
      rw [List.all_cons, Bool.and_eq_true] at hempty
      rw [List.foldl_cons, aabb.covers_of_isEmpty hempty.1, empty_union, ih hempty.2]
  exact hboxes shape.boxes h

/-- Light is blocked by a full block, or if the two faces fill the grid between them. -/
theorem mergedFaceOccludes_iff {shape1 shape2 : VoxelShape} {direction : Direction} :
    shape1.mergedFaceOccludes shape2 direction = true ↔
      shape1.isShapeFullBlock = true ∨ shape2.isShapeFullBlock = true ∨
        shape1.face direction ∪ shape2.face direction.opposite = univ := by
  unfold mergedFaceOccludes
  by_cases hfull : shape1.isShapeFullBlock = true ∨ shape2.isShapeFullBlock = true
  · rcases hfull with h | h <;> simp [h]
  · simp only [not_or, Bool.not_eq_true] at hfull
    simp only [hfull.1, hfull.2, Bool.or_self, Bool.false_eq_true, if_false, false_or,
      projectShapeOntoGrid_eq, empty_union, card_eq_iff]
    by_cases hempty : shape1.isEmpty = true ∧ shape2.isEmpty = true
    · have hne : (∅ : FaceGrid) ≠ univ := Finset.univ_nonempty.ne_empty.symm
      simp [hempty.1, hempty.2, face_of_isEmpty, hne]
    · have hand : (shape1.isEmpty && shape2.isEmpty) = false := by
        rw [Bool.eq_false_iff, ne_eq, Bool.and_eq_true]
        exact hempty
      simp only [hand, Bool.false_eq_true, if_false]
      split_ifs with hgrid
      · simp [hgrid]
      · simp

theorem mergedFaceOccludes_comm (shape1 shape2 : VoxelShape) (direction : Direction) :
    shape2.mergedFaceOccludes shape1 direction.opposite =
      shape1.mergedFaceOccludes shape2 direction := by
  rw [Bool.eq_iff_iff, mergedFaceOccludes_iff, mergedFaceOccludes_iff, Direction.opposite_opposite,
    Finset.union_comm]
  tauto

theorem mergedFaceOccludes_of_isEmpty {shape1 shape2 shape : VoxelShape} {direction : Direction}
    (hempty : shape1.isEmpty = true) (h : shape1.mergedFaceOccludes shape2 direction = true) :
    shape.mergedFaceOccludes shape2 direction = true := by
  rw [mergedFaceOccludes_iff, shape1.not_full_of_isEmpty hempty, face_of_isEmpty hempty,
    empty_union] at h
  rw [mergedFaceOccludes_iff]
  rcases h with h | h | h
  · cases h
  · exact .inr (.inl h)
  · exact .inr (.inr (by rw [h]; exact Finset.union_eq_right.2 (Finset.subset_univ _)))

end VoxelShape

/-- The light properties of the registered block states. -/
structure LightBlocks (S : Type*) where
  air : S
  lightEmission : S → ℕ
  lightDampening : S → ℕ
  canOcclude : S → Bool
  useShapeForLightOcclusion : S → Bool
  occlusionShape : S → VoxelShape
  lightDampening_le (state : S) : lightDampening state ≤ maxLightLevel
  canOcclude_air : canOcclude air = false

namespace LightBlocks

variable {S : Type*} (blocks : LightBlocks S)

def getLightOpacity (state : S) : ℕ := max (blocks.lightDampening state) minLightOpacity

def lightOcclusionShape (state : S) : VoxelShape :=
  if !blocks.canOcclude state || !blocks.useShapeForLightOcclusion state then .empty
  else blocks.occlusionShape state

def getLightBlockInto (fromState toState : S) (direction : Direction) (simpleOpacity : ℕ) : ℕ :=
  let fromShape := blocks.lightOcclusionShape fromState
  let toShape := blocks.lightOcclusionShape toState
  if fromShape.isEmpty && toShape.isEmpty then simpleOpacity
  else if fromShape.mergedFaceOccludes toShape direction then lightBlocked
  else simpleOpacity

def emittedLevel (state : S) : ℕ := blocks.lightEmission state &&& maxLightLevel

def occludes (fromState toState : S) (direction : Direction) : Bool :=
  !((blocks.lightOcclusionShape fromState).isEmpty &&
      (blocks.lightOcclusionShape toState).isEmpty) &&
    (blocks.lightOcclusionShape fromState).mergedFaceOccludes
      (blocks.lightOcclusionShape toState) direction

variable {blocks} (state : S)

theorem emittedLevel_le : blocks.emittedLevel state ≤ maxLightLevel := Nat.and_le_right

theorem getLightOpacity_pos : 0 < blocks.getLightOpacity state :=
  Nat.lt_of_lt_of_le Nat.zero_lt_one (Nat.le_max_right _ _)

theorem getLightOpacity_le : blocks.getLightOpacity state ≤ maxLightLevel :=
  Nat.max_le.2 ⟨blocks.lightDampening_le state, by decide⟩

theorem getLightBlockInto_eq (fromState toState : S) (direction : Direction) (simpleOpacity : ℕ) :
    blocks.getLightBlockInto fromState toState direction simpleOpacity =
      if blocks.occludes fromState toState direction then lightBlocked else simpleOpacity := by
  unfold getLightBlockInto occludes
  by_cases hempty : ((blocks.lightOcclusionShape fromState).isEmpty &&
      (blocks.lightOcclusionShape toState).isEmpty) = true
  · simp [hempty]
  · rw [Bool.not_eq_true] at hempty
    simp [hempty]

theorem isEmpty_air : (blocks.lightOcclusionShape blocks.air).isEmpty = true := by
  simp [lightOcclusionShape, blocks.canOcclude_air, VoxelShape.isEmpty, VoxelShape.empty]

theorem occludes_comm (state1 state2 : S) (direction : Direction) :
    blocks.occludes state2 state1 direction.opposite = blocks.occludes state1 state2 direction := by
  unfold occludes
  rw [VoxelShape.mergedFaceOccludes_comm, Bool.and_comm (VoxelShape.isEmpty _)]

/-- A block without a shape is like air, which occludes no more than any other block. -/
theorem occludes_of_isEmpty {state state' target : S} {direction : Direction}
    (hempty : (blocks.lightOcclusionShape state).isEmpty = true)
    (h : blocks.occludes state target direction = true) :
    blocks.occludes state' target direction = true := by
  unfold occludes at h ⊢
  simp only [hempty, Bool.true_and, Bool.and_eq_true, Bool.not_eq_true'] at h
  simp only [h.1, Bool.and_false, Bool.not_false, Bool.true_and]
  exact VoxelShape.mergedFaceOccludes_of_isEmpty hempty h.2

end LightBlocks

end Steel
