import Steel.Recipe.CraftingInput

/-! # Shaped recipes

A shaped recipe is compared with the box of the stacks in a grid, cell by cell, and with a mirrored
pattern if the pattern is not its own mirror image.
-/

namespace Steel

open List CraftingGrid

structure ShapedRecipe where
  width : ℕ
  height : ℕ
  pattern : List Ingredient
  symmetrical : Bool

namespace ShapedRecipe

def computeSymmetrical (width : ℕ) (pattern : List Ingredient) : Option Bool :=
  if width = 0 then some true
  else (gridCells (width / 2) (pattern.length / width)).allM fun cell => do
    let left ← pattern[cell.2 * width + cell.1]?
    let right ← pattern[cell.2 * width + (width - 1 - cell.1)]?
    return left.eqIngredient right

def new (width height : ℕ) (pattern : List Ingredient) : Option ShapedRecipe := do
  return ⟨width, height, pattern, ← computeSymmetrical width pattern⟩

variable {κ : Type} [ItemKind κ] [ItemTags] (recipe : ShapedRecipe)

def matchesAt (input : CraftingInput κ) (mirrored : Bool) : Option Bool :=
  (gridCells recipe.width recipe.height).allM fun cell => do
    let patternX := if mirrored then recipe.width - 1 - cell.1 else cell.1
    let ingredient ← recipe.pattern[cell.2 * recipe.width + patternX]?
    let inputItem ← input.get cell.1 cell.2
    return ingredient.test inputItem

/-- `matches` -/
def matchesInput (input : CraftingInput κ) : Option Bool :=
  if input.ingredientCount ≠ (recipe.pattern.filter fun i => !i.isEmpty).length then some false
  else if input.width ≠ recipe.width ∨ input.height ≠ recipe.height then some false
  else do
    if ← recipe.matchesAt input false then return true
    if recipe.symmetrical then return false
    recipe.matchesAt input true

def matchesGrid (grid : CraftingGrid κ) : Option Bool := do
  recipe.matchesInput (← grid.asPositionedInput).input

end ShapedRecipe

section Placement

theorem allM_of_eq_some {α : Type} {f : α → Option Bool} {g : α → Bool} {l : List α}
    (h : ∀ a ∈ l, f a = some (g a)) : l.allM f = some (l.all g) := by
  induction l with
  | nil => rfl
  | cons a l ih =>
    have hrest := ih fun a' ha' => h a' (mem_cons_of_mem _ ha')
    rw [List.allM, h a mem_cons_self, all_cons]
    cases hga : g a with
    | true => exact hrest
    | false => rfl

def mirrorCell (width : ℕ) (mirrored : Bool) (cell : ℕ × ℕ) : ℕ × ℕ :=
  (if mirrored then width - 1 - cell.1 else cell.1, cell.2)

variable {cell : ℕ × ℕ}

theorem mirrorCell_lt {width : ℕ} (mirrored : Bool) (h : cell.1 < width) :
    (mirrorCell width mirrored cell).1 < width := by
  unfold mirrorCell
  cases mirrored with
  | true => exact (Nat.sub_le _ _).trans_lt (by omega)
  | false => exact h

theorem mirrorCell_mirrorCell {width : ℕ} (mirrored : Bool) (h : cell.1 < width) :
    mirrorCell width mirrored (mirrorCell width mirrored cell) = cell := by
  cases mirrored with
  | true =>
    refine Prod.ext ?_ rfl
    simp only [mirrorCell, if_true]
    omega
  | false => rfl

theorem map_mirrorCell_perm (width height : ℕ) (mirrored : Bool) :
    ((gridCells width height).map (mirrorCell width mirrored)).Perm (gridCells width height) := by
  cases mirrored with
  | false =>
    have hid : mirrorCell width false = id := rfl
    rw [hid, map_id]
  | true =>
    rw [gridCells, map_flatMap]
    refine Perm.flatMap_left _ fun y _ => ?_
    rw [map_map]
    have hrow : (List.range width).map (mirrorCell width true ∘ fun x => (x, y)) =
        ((List.range width).map fun x => (x, y)).reverse := by
      rw [← map_reverse, range_eq_range', reverse_range', map_map, ← range_eq_range']
      refine map_congr_left fun x _ => ?_
      simp [mirrorCell]
    rw [hrow]
    exact reverse_perm _

namespace ShapedRecipe

def ingredientAt (width : ℕ) (pattern : List Ingredient) (cell : ℕ × ℕ) : Ingredient :=
  pattern.getD (cell.2 * width + cell.1) .empty

section Pattern

variable {width height : ℕ} {pattern : List Ingredient} (hlength : pattern.length = width * height)

include hlength

theorem getElem?_pattern {x y : ℕ} (hx : x < width) (hy : y < height) :
    pattern[y * width + x]? = some (ingredientAt width pattern (x, y)) := by
  have hlt : y * width + x < pattern.length := by
    rw [hlength]
    exact row_slot_lt hx hy
  rw [ingredientAt, getD_eq_getElem?_getD, List.getElem?_eq_getElem hlt, Option.getD_some]

theorem pattern_eq : pattern = (gridCells width height).map (ingredientAt width pattern) := by
  have hmap : (gridCells width height).map (ingredientAt width pattern) =
      (List.range (height * width)).map fun i => pattern.getD i .empty := by
    rw [← map_gridCells, map_map]
    rfl
  rw [hmap, Nat.mul_comm, ← hlength]
  refine ext_getElem (by simp) fun i hi _ => ?_
  rw [getElem_map, getElem_range, getD_eq_getElem?_getD,
    List.getElem?_eq_getElem hi, Option.getD_some]

/-- A recipe is built, and a pattern that is found symmetrical is its own mirror image. -/
theorem new_eq (hwidth : 0 < width) : ∃ symmetrical,
    ShapedRecipe.new width height pattern = some ⟨width, height, pattern, symmetrical⟩ ∧
      (symmetrical = true → ∀ cell, cell.1 < width → cell.2 < height →
        ingredientAt width pattern (mirrorCell width true cell) =
          ingredientAt width pattern cell) := by
  have hheight : pattern.length / width = height := by
    rw [hlength, Nat.mul_div_cancel_left _ hwidth]
  have hsymmetrical : computeSymmetrical width pattern =
      some ((gridCells (width / 2) height).all fun cell =>
        (ingredientAt width pattern cell).eqIngredient
          (ingredientAt width pattern (mirrorCell width true cell))) := by
    rw [computeSymmetrical, if_neg hwidth.ne', hheight]
    refine allM_of_eq_some fun cell hcell => ?_
    obtain ⟨hx, hy⟩ := mem_gridCells.1 hcell
    rw [getElem?_pattern hlength (by omega) hy, getElem?_pattern hlength (by omega) hy]
    rfl
  generalize hflag : List.all _ _ = symmetrical at hsymmetrical
  refine ⟨symmetrical, ?_, fun htrue cell hx hy => ?_⟩
  · rw [ShapedRecipe.new, hsymmetrical]
    rfl
  · have hall := all_eq_true.1 (hflag.trans htrue)
    have hhalf {x : ℕ} (hlt : x < width / 2) : ingredientAt width pattern (x, cell.2) =
          ingredientAt width pattern (width - 1 - x, cell.2) :=
      Ingredient.eq_of_eqIngredient (hall (x, cell.2) (mem_gridCells.2 ⟨hlt, hy⟩))
    have hmirror : mirrorCell width true cell = (width - 1 - cell.1, cell.2) := rfl
    rw [hmirror]
    by_cases hlt : cell.1 < width / 2
    · exact (hhalf hlt).symm
    · by_cases hmiddle : width - 1 - cell.1 = cell.1
      · rw [hmiddle]
      · rw [hhalf (by omega), show width - 1 - (width - 1 - cell.1) = cell.1 by omega]

end Pattern

/-- The first and last rows and columns of a pattern are not empty. -/
structure Framed (width height : ℕ) (pattern : List Ingredient) : Prop where
  top : ∃ x < width, (ingredientAt width pattern (x, 0)).isEmpty = false
  bottom : ∃ x < width, (ingredientAt width pattern (x, height - 1)).isEmpty = false
  left : ∃ y < height, (ingredientAt width pattern (0, y)).isEmpty = false
  right : ∃ y < height, (ingredientAt width pattern (width - 1, y)).isEmpty = false

variable {κ : Type} [ItemKind κ] [ItemTags]

/-- The pattern or its mirror image lies in the grid at some place, every cell is accepted by its
ingredient, and the other cells are empty. -/
structure PlacedAt (width height : ℕ) (pattern : List Ingredient) (grid : CraftingGrid κ)
    (left top : ℕ) (mirrored : Bool) : Prop where
  left_le : left + width ≤ grid.width
  top_le : top + height ≤ grid.height
  accepted : ∀ x < width, ∀ y < height,
    (ingredientAt width pattern (mirrorCell width mirrored (x, y))).test
      (grid.stack ((y + top) * grid.width + (x + left))) = true
  others : ∀ x < grid.width, ∀ y < grid.height,
    ¬ ((left ≤ x ∧ x < left + width) ∧ top ≤ y ∧ y < top + height) →
    (grid.stack (y * grid.width + x)).IsEmpty

section Placement

variable {width height : ℕ} {pattern : List Ingredient} {grid : CraftingGrid κ}
  {left top : ℕ} {mirrored : Bool}

section

variable (h : PlacedAt width height pattern grid left top mirrored)

include h

/-- A cell of a placed pattern is filled exactly if its ingredient is not empty. -/
theorem PlacedAt.isFilled_eq {x y : ℕ} (hx : x < width) (hy : y < height) :
    (grid.stack ((y + top) * grid.width + (x + left))).isFilled =
      !(ingredientAt width pattern (mirrorCell width mirrored (x, y))).isEmpty := by
  rw [Ingredient.isEmpty_of_test (h.accepted x hx y hy), ItemStack.isFilled]

theorem PlacedAt.mem_occupied (cell : ℕ × ℕ) (hx : cell.1 < width) (hy : cell.2 < height)
    (hfilled : (ingredientAt width pattern cell).isEmpty = false) :
    ((mirrorCell width mirrored cell).1 + left, cell.2 + top) ∈ grid.occupied := by
  have hx' := mirrorCell_lt mirrored hx
  have hleft := h.left_le
  have htop := h.top_le
  refine CraftingGrid.mem_occupied.2 ⟨⟨by omega, by omega⟩, ?_⟩
  have hpair : ((mirrorCell width mirrored cell).1, cell.2) = mirrorCell width mirrored cell := rfl
  rw [h.isFilled_eq hx' hy, hpair, mirrorCell_mirrorCell mirrored hx, hfilled]
  rfl

theorem PlacedAt.inside (hcell : cell ∈ grid.occupied) :
    (left ≤ cell.1 ∧ cell.1 < left + width) ∧ top ≤ cell.2 ∧ cell.2 < top + height := by
  obtain ⟨⟨hx, hy⟩, hfilled⟩ := CraftingGrid.mem_occupied.1 hcell
  by_contra houtside
  rw [ItemStack.isFilled, decide_eq_true (h.others _ hx _ hy houtside)] at hfilled
  cases hfilled

/-- The first and last columns of a placement are touched, whether it is mirrored or not. -/
theorem PlacedAt.touches (hframed : Framed width height pattern) :
    (∃ cell ∈ grid.occupied, cell.1 = left) ∧
      ∃ cell ∈ grid.occupied, cell.1 + 1 = left + width := by
  obtain ⟨x, hx, -⟩ := hframed.top
  obtain ⟨y, hy, hleft⟩ := hframed.left
  obtain ⟨y', hy', hright⟩ := hframed.right
  have hfirst := h.mem_occupied (0, y) (by omega) hy hleft
  have hlast := h.mem_occupied (width - 1, y') (by omega) hy' hright
  cases mirrored with
  | true =>
    refine ⟨⟨_, hlast, ?_⟩, _, hfirst, ?_⟩ <;> simp only [mirrorCell, if_true] <;> omega
  | false =>
    refine ⟨⟨_, hfirst, ?_⟩, _, hlast, ?_⟩ <;>
      simp only [mirrorCell, Bool.false_eq_true, if_false] <;> omega

variable {positioned : PositionedCraftingInput κ}

theorem PlacedAt.spanned_eq (hframed : Framed width height pattern)
    (hspanned : grid.Spanned positioned) :
    (positioned.left = left ∧ positioned.top = top) ∧
      positioned.input.width = width ∧ positioned.input.height = height := by
  obtain ⟨⟨first, hfirst, hfirst'⟩, last, hlast, hlast'⟩ := h.touches hframed
  obtain ⟨x, hx, htop⟩ := hframed.top
  obtain ⟨x', hx', hbottom⟩ := hframed.bottom
  obtain ⟨y, hy, -⟩ := hframed.left
  have hupper := hspanned.contains _ (h.mem_occupied (x, 0) hx (by omega) htop)
  have hlower := hspanned.contains _ (h.mem_occupied (x', height - 1) hx' (by omega) hbottom)
  have hfirst := hspanned.contains _ hfirst
  have hlast := hspanned.contains _ hlast
  obtain ⟨cell, hcell, hcell'⟩ := hspanned.left
  have hleft := h.inside hcell
  obtain ⟨cell, hcell, hcell'⟩ := hspanned.right
  have hright := h.inside hcell
  obtain ⟨cell, hcell, hcell'⟩ := hspanned.top
  have htop := h.inside hcell
  obtain ⟨cell, hcell, hcell'⟩ := hspanned.bottom
  have hbottom := h.inside hcell
  dsimp only at hupper hlower
  omega

theorem PlacedAt.count_eq (hlength : pattern.length = width * height)
    (hspanned : grid.Spanned positioned) (hplace : positioned.left = left ∧ positioned.top = top)
    (hsize : positioned.input.width = width ∧ positioned.input.height = height) :
    positioned.input.ingredientCount = (pattern.filter fun i => !i.isEmpty).length := by
  have hfilled : ∀ cell ∈ gridCells width height,
      (grid.stack (positioned.toGridSlot cell.1 cell.2 grid.width)).isFilled =
        !(ingredientAt width pattern (mirrorCell width mirrored cell)).isEmpty := by
    intro cell hcell
    obtain ⟨hx, hy⟩ := mem_gridCells.1 hcell
    rw [toGridSlot_eq, hplace.1, hplace.2]
    exact h.isFilled_eq hx hy
  have hperm := ((map_mirrorCell_perm width height mirrored).map
    (ingredientAt width pattern)).filter fun i => !i.isEmpty
  rw [← pattern_eq hlength, map_map, filter_map] at hperm
  rw [hspanned.count, hspanned.items, hsize.1, hsize.2, filter_map, length_map,
    ← hperm.length_eq, length_map]
  exact congrArg _ (filter_congr hfilled)

end

end Placement

section Matches

variable {width height : ℕ} {pattern : List Ingredient} (symmetrical : Bool)
  {grid : CraftingGrid κ} {positioned : PositionedCraftingInput κ}

def accepts (width height : ℕ) (pattern : List Ingredient) (grid : CraftingGrid κ)
    (positioned : PositionedCraftingInput κ) (mirrored : Bool) : Bool :=
  (gridCells width height).all fun cell =>
    (ingredientAt width pattern (mirrorCell width mirrored cell)).test
      (grid.stack (positioned.toGridSlot cell.1 cell.2 grid.width))

section

variable (hlength : pattern.length = width * height) (hspanned : grid.Spanned positioned)
  (hwidth : positioned.input.width = width) (hheight : positioned.input.height = height)

include hlength hspanned hwidth hheight

theorem matchesAt_eq (mirrored : Bool) :
    matchesAt ⟨width, height, pattern, symmetrical⟩ positioned.input mirrored =
      some (accepts width height pattern grid positioned mirrored) := by
  subst hwidth hheight
  refine allM_of_eq_some fun cell hcell => ?_
  obtain ⟨hx, hy⟩ := mem_gridCells.1 hcell
  have hmirror := mirrorCell_lt mirrored hx
  have hpattern : pattern[cell.2 * positioned.input.width +
      (if mirrored then positioned.input.width - 1 - cell.1 else cell.1)]? =
      some (ingredientAt positioned.input.width pattern
        (mirrorCell positioned.input.width mirrored cell)) :=
    getElem?_pattern hlength hmirror hy
  dsimp only
  rw [hspanned.get_eq hx hy, hpattern]
  rfl

theorem matchesInput_eq : matchesInput ⟨width, height, pattern, symmetrical⟩ positioned.input =
      some (decide (positioned.input.ingredientCount =
          (pattern.filter fun i => !i.isEmpty).length) &&
        (accepts width height pattern grid positioned false ||
          !symmetrical && accepts width height pattern grid positioned true)) := by
  rw [matchesInput]
  by_cases hcount : positioned.input.ingredientCount = (pattern.filter fun i => !i.isEmpty).length
  · have hsize : ¬ (positioned.input.width ≠ width ∨ positioned.input.height ≠ height) := by
      rw [not_or, not_not, not_not]
      exact ⟨hwidth, hheight⟩
    rw [if_neg (not_not.2 hcount), if_neg hsize, decide_eq_true hcount, Bool.true_and,
      matchesAt_eq symmetrical hlength hspanned hwidth hheight,
      matchesAt_eq symmetrical hlength hspanned hwidth hheight]
    cases accepts width height pattern grid positioned false with
    | true => rfl
    | false =>
      cases symmetrical with
      | true => rfl
      | false => rfl
  · rw [if_pos hcount, decide_eq_false hcount, Bool.false_and]

end

theorem placedAt_of_accepts (hspanned : grid.Spanned positioned)
    (hwidth : positioned.input.width = width) (hheight : positioned.input.height = height)
    {mirrored : Bool} (h : accepts width height pattern grid positioned mirrored = true) :
    PlacedAt width height pattern grid positioned.left positioned.top mirrored := by
  subst hwidth hheight
  constructor
  · exact hspanned.left_le
  · exact hspanned.top_le
  · intro x hx y hy
    rw [← toGridSlot_eq]
    exact all_eq_true.1 h (x, y) (mem_gridCells.2 ⟨hx, hy⟩)
  · intro x hx y hy houtside
    by_contra hne
    refine houtside (hspanned.contains (x, y) (mem_occupied.2 ⟨⟨hx, hy⟩, ?_⟩))
    rw [ItemStack.isFilled, decide_eq_false hne]
    rfl

theorem PlacedAt.accepts_eq {left top : ℕ} {mirrored : Bool}
    (h : PlacedAt width height pattern grid left top mirrored)
    (hplace : positioned.left = left ∧ positioned.top = top) :
    accepts width height pattern grid positioned mirrored = true := by
  refine all_eq_true.2 fun cell hcell => ?_
  obtain ⟨hx, hy⟩ := mem_gridCells.1 hcell
  rw [toGridSlot_eq, hplace.1, hplace.2]
  exact h.accepted _ hx _ hy

theorem accepts_mirrored (hmirror : ∀ cell : ℕ × ℕ, cell.1 < width → cell.2 < height →
    ingredientAt width pattern (mirrorCell width true cell) = ingredientAt width pattern cell) :
    accepts width height pattern grid positioned true =
      accepts width height pattern grid positioned false := by
  refine Bool.eq_iff_iff.2 ?_
  rw [accepts, accepts, all_eq_true, all_eq_true]
  refine forall₂_congr fun cell hcell => ?_
  obtain ⟨hx, hy⟩ := mem_gridCells.1 hcell
  rw [hmirror cell hx hy]
  rfl

end Matches

theorem matchesInput_eq_false {recipe : ShapedRecipe} {input : CraftingInput κ}
    (h : input.width ≠ recipe.width ∨ input.height ≠ recipe.height) :
    recipe.matchesInput input = some false := by
  rw [matchesInput, if_pos h, ite_self]

theorem matchesInput_iff {width height : ℕ} {pattern : List Ingredient}
    (hlength : pattern.length = width * height) (hframed : Framed width height pattern)
    {symmetrical : Bool} (hmirror : symmetrical = true → ∀ cell : ℕ × ℕ, cell.1 < width →
      cell.2 < height →
      ingredientAt width pattern (mirrorCell width true cell) = ingredientAt width pattern cell)
    {grid : CraftingGrid κ} {positioned : PositionedCraftingInput κ}
    (hspanned : grid.Spanned positioned) :
    ∃ answer, matchesInput ⟨width, height, pattern, symmetrical⟩ positioned.input = some answer ∧
      (answer = true ↔
        ∃ left top mirrored, PlacedAt width height pattern grid left top mirrored) := by
  by_cases hsize : positioned.input.width = width ∧ positioned.input.height = height
  · refine ⟨_, matchesInput_eq symmetrical hlength hspanned hsize.1 hsize.2, ?_⟩
    rw [Bool.and_eq_true, decide_eq_true_eq, Bool.or_eq_true, Bool.and_eq_true]
    constructor
    · rintro ⟨-, haccepts | ⟨-, haccepts⟩⟩
      · exact ⟨_, _, _, placedAt_of_accepts hspanned hsize.1 hsize.2 haccepts⟩
      · exact ⟨_, _, _, placedAt_of_accepts hspanned hsize.1 hsize.2 haccepts⟩
    · rintro ⟨left, top, mirrored, hplaced⟩
      obtain ⟨hplace, -⟩ := hplaced.spanned_eq hframed hspanned
      have haccepts := hplaced.accepts_eq hplace
      refine ⟨hplaced.count_eq hlength hspanned hplace hsize, ?_⟩
      cases mirrored with
      | false => exact .inl haccepts
      | true =>
        cases symmetrical with
        | false => exact .inr ⟨rfl, haccepts⟩
        | true =>
          rw [accepts_mirrored (hmirror rfl)] at haccepts
          exact .inl haccepts
  · refine ⟨false, matchesInput_eq_false (not_and_or.1 hsize), ?_⟩
    refine iff_of_false Bool.false_ne_true ?_
    rintro ⟨left, top, mirrored, hplaced⟩
    exact hsize (hplaced.spanned_eq hframed hspanned).2

/-- A recipe matches a grid exactly if its pattern or the mirror image of it is placed there, and
the cells of the input lead back to the slots of the grid. No index is out of range. -/
theorem matchesGrid_iff_placed {width height : ℕ} {pattern : List Ingredient}
    (hlength : pattern.length = width * height) (hframed : Framed width height pattern) :
    ∃ recipe, ShapedRecipe.new width height pattern = some recipe ∧ ∀ grid : CraftingGrid κ,
      (∃ answer, recipe.matchesGrid grid = some answer ∧ (answer = true ↔
        ∃ left top mirrored, PlacedAt width height pattern grid left top mirrored)) ∧
      ∃ positioned, grid.asPositionedInput = some positioned ∧ grid.Traced positioned := by
  obtain ⟨x, hx, -⟩ := hframed.top
  obtain ⟨symmetrical, hnew, hmirror⟩ := new_eq hlength (Nat.zero_lt_of_lt hx)
  refine ⟨_, hnew, fun grid => ?_⟩
  by_cases hoccupied : grid.occupied = []
  · have hinput := asPositionedInput_empty hoccupied
    refine ⟨⟨false, ?_, ?_⟩, .empty, hinput, traced_empty hoccupied⟩
    · rw [matchesGrid, hinput]
      exact matchesInput_eq_false (.inl (Nat.zero_lt_of_lt hx).ne)
    · refine iff_of_false Bool.false_ne_true ?_
      rintro ⟨left, top, mirrored, hplaced⟩
      obtain ⟨⟨cell, hcell, -⟩, -⟩ := hplaced.touches hframed
      rw [hoccupied] at hcell
      cases hcell
  · obtain ⟨positioned, hinput, hspanned⟩ := asPositionedInput_spanned hoccupied
    refine ⟨?_, positioned, hinput, hspanned.traced⟩
    rw [matchesGrid, hinput]
    exact matchesInput_iff hlength hframed hmirror hspanned

def goldAndIron : CraftingGrid Ingot :=
  ⟨3, 2, [⟨.air, 0⟩, ⟨.air, 0⟩, ⟨.air, 0⟩, ⟨.air, 0⟩, ⟨.gold, 1⟩, ⟨.iron, 1⟩], rfl⟩

omit [ItemTags] in
/-- Iron before gold is found in the mirror. -/
theorem matchesGrid_iff_placed_goldAndIron :
    ∃ recipe, ShapedRecipe.new 2 1 [.item 1, .item 2] = some recipe ∧
      @matchesGrid Ingot _ noTags recipe goldAndIron = some true ∧
      ∃ left top mirrored,
        @PlacedAt Ingot _ noTags 2 1 [.item 1, .item 2] goldAndIron left top mirrored := by
  obtain ⟨recipe, hnew, hmatches⟩ := @matchesGrid_iff_placed Ingot _ noTags 2 1 [.item 1, .item 2]
    rfl ⟨⟨0, by decide, rfl⟩, ⟨0, by decide, rfl⟩, ⟨0, by decide, rfl⟩, ⟨0, by decide, rfl⟩⟩
  obtain ⟨⟨answer, hanswer, hiff⟩, -⟩ := hmatches goldAndIron
  have hrecipe : recipe = ⟨2, 1, [.item 1, .item 2], false⟩ :=
    Option.some_inj.1 (hnew.symm.trans rfl)
  have htrue : @matchesGrid Ingot _ noTags ⟨2, 1, [.item 1, .item 2], false⟩ goldAndIron =
      some true := by
    decide +kernel
  subst hrecipe
  refine ⟨_, hnew, htrue, hiff.1 ?_⟩
  rw [htrue] at hanswer
  exact (Option.some_inj.1 hanswer).symm

end ShapedRecipe

end Placement

end Steel
