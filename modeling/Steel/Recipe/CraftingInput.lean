import Mathlib.Data.List.Sort
import Steel.Inventory.ItemStack
import Steel.Utils.Identifier

/-! # Crafting inputs

Recipes are matched against the part of a crafting grid that its stacks span: a box that holds all
stacks, each of whose sides touches one.
-/

namespace Steel

open Nat

/-- The tags of items. -/
class ItemTags where
  isInTag : ℕ → Identifier → Bool

inductive Ingredient where
  | empty
  | item (item : ℕ)
  | tag (tag : Identifier)
  | choice (items : List ℕ)
  deriving DecidableEq

namespace Ingredient

def isEmpty : Ingredient → Bool
  | empty => true
  | _ => false

def eqIngredient : Ingredient → Ingredient → Bool
  | empty, empty => true
  | item a, item b => a == b
  | tag a, tag b => a == b
  | choice a, choice b => a.length == b.length && (a.zip b).all fun (x, y) => x == y
  | _, _ => false

theorem eq_of_eqIngredient {a b : Ingredient} (h : a.eqIngredient b = true) : a = b := by
  cases a with
  | empty => cases b <;> first | rfl | cases h
  | item a =>
    cases b with
    | item b => exact congrArg item (beq_iff_eq.1 h)
    | _ => cases h
  | tag a =>
    cases b with
    | tag b => exact congrArg tag (beq_iff_eq.1 h)
    | _ => cases h
  | choice a =>
    cases b with
    | choice b =>
      obtain ⟨hlength, hall⟩ := Bool.and_eq_true_iff.1 h
      have heq : List.Forall₂ Eq a b := by
        refine List.forall₂_iff_zip.2 ⟨beq_iff_eq.1 hlength, fun {x y} hmem => ?_⟩
        exact beq_iff_eq.1 (List.all_eq_true.1 hall (x, y) hmem)
      rw [List.forall₂_eq_eq_eq] at heq
      exact congrArg choice heq
    | _ => cases h

variable {κ : Type} [ItemKind κ] [ItemTags]

def test (ingredient : Ingredient) (stack : ItemStack κ) : Bool :=
  match ingredient with
  | empty => stack.IsEmpty
  | item kind => !decide stack.IsEmpty && kind == ItemKind.item stack.kind
  | tag name =>
    if stack.IsEmpty then false else ItemTags.isInTag (ItemKind.item stack.kind) name
  | choice items => if stack.IsEmpty then false else items.contains (ItemKind.item stack.kind)

/-- Only an empty ingredient accepts an empty stack, and it accepts no other. -/
theorem isEmpty_of_test {ingredient : Ingredient} {stack : ItemStack κ}
    (h : ingredient.test stack = true) : ingredient.isEmpty = decide stack.IsEmpty := by
  by_cases hstack : stack.IsEmpty
  · cases ingredient <;> simp [test, hstack, isEmpty] at h ⊢
  · cases ingredient <;> simp [test, hstack, isEmpty] at h ⊢

end Ingredient

/-- Air and two ingots. -/
inductive Ingot where
  | air
  | iron
  | gold
  deriving DecidableEq

instance : ItemKind Ingot where
  item
    | .air => 0
    | .iron => 1
    | .gold => 2
  air := .air
  item_air := rfl
  maxStackSize _ := 64
  one_le_maxStackSize _ := by decide
  maxStackSize_le _ := by decide
  isDamaged _ := false

abbrev noTags : ItemTags := ⟨fun _ _ => false⟩

open List ItemStack

variable {κ : Type} [ItemKind κ]

def ItemStack.isFilled (stack : ItemStack κ) : Bool := !decide stack.IsEmpty

def gridCells (width height : ℕ) : List (ℕ × ℕ) :=
  (List.range height).flatMap fun y => (List.range width).map fun x => (x, y)

structure CraftingInput (κ : Type) where
  width : ℕ
  height : ℕ
  items : List (ItemStack κ)
  ingredientCount : ℕ

structure PositionedCraftingInput (κ : Type) where
  input : CraftingInput κ
  left : ℕ
  top : ℕ

/-- The cells that stacks span. -/
structure GridBounds where
  left : ℕ
  right : ℕ
  top : ℕ
  bottom : ℕ

def GridBounds.include (bounds : GridBounds) (cell : ℕ × ℕ) : GridBounds :=
  ⟨min bounds.left cell.1, max bounds.right cell.1, min bounds.top cell.2, max bounds.bottom cell.2⟩

def PositionedCraftingInput.empty : PositionedCraftingInput κ := ⟨⟨0, 0, [], 0⟩, 0, 0⟩

def PositionedCraftingInput.toGridSlot (self : PositionedCraftingInput κ) (x y gridWidth : ℕ) : ℕ :=
  (x + self.left) + (y + self.top) * gridWidth

namespace CraftingInput

def new (width height : ℕ) (items : List (ItemStack κ)) : Option (CraftingInput κ) :=
  if items.length = width * height then
    some ⟨width, height, items, (items.filter isFilled).length⟩
  else none

def bounds (width height : ℕ) (items : List (ItemStack κ)) : Option GridBounds :=
  (gridCells width height).foldlM (fun bounds cell => do
    let stack ← items[cell.2 * width + cell.1]?
    return if stack.isFilled then bounds.include cell else bounds) ⟨width, 0, height, 0⟩

def positioned (width height : ℕ) (items : List (ItemStack κ)) :
    Option (PositionedCraftingInput κ) := do
  if width = 0 ∨ height = 0 then return .empty
  let ⟨left, right, top, bottom⟩ ← bounds width height items
  if right < left ∨ bottom < top then return .empty
  let newWidth := right - left + 1
  let newHeight := bottom - top + 1
  if newWidth = width ∧ newHeight = height then
    return ⟨← new width height items, left, top⟩
  let newItems ← (gridCells newWidth newHeight).mapM fun cell =>
    items[(cell.1 + left) + (cell.2 + top) * width]?
  return ⟨← new newWidth newHeight newItems, left, top⟩

def get (self : CraftingInput κ) (x y : ℕ) : Option (ItemStack κ) :=
  self.items[y * self.width + x]?

end CraftingInput

open CraftingInput (positioned bounds new)

section BoundingBox

variable {width height : ℕ} {cell : ℕ × ℕ}

theorem mem_gridCells :
    cell ∈ gridCells width height ↔ cell.1 < width ∧ cell.2 < height := by
  obtain ⟨x, y⟩ := cell
  simp [gridCells, and_comm]

theorem map_gridCells (width height : ℕ) :
    (gridCells width height).map (fun cell => cell.2 * width + cell.1) =
      List.range (height * width) := by
  induction height with
  | zero => rw [zero_mul]; rfl
  | succ height ih =>
    rw [gridCells] at ih ⊢
    rw [range_succ, flatMap_append, map_append, ih, succ_mul, range_add]
    simp [Function.comp_def]

@[simp] theorem length_gridCells (width height : ℕ) :
    (gridCells width height).length = width * height := by
  have hlength := congrArg List.length (map_gridCells width height)
  rwa [length_map, length_range, mul_comm] at hlength

theorem row_slot_lt {width height x y : ℕ} (hx : x < width) (hy : y < height) :
    y * width + x < width * height := by
  calc y * width + x < y * width + width := Nat.add_lt_add_left hx _
    _ = (y + 1) * width := (Nat.succ_mul y width).symm
    _ ≤ height * width := mul_le_mul_right _ hy
    _ = width * height := mul_comm _ _

theorem slot_lt_slot_iff {width x y x' y' : ℕ} (hx : x < width) (hx' : x' < width) :
    y * width + x < y' * width + x' ↔ y < y' ∨ y = y' ∧ x < x' := by
  have hrow {a b c d : ℕ} (hc : c < width) (hab : a < b) : a * width + c < b * width + d := by
    rw [mul_comm b]
    exact (row_slot_lt hc hab).trans_le (le_add_right _ d)
  rcases lt_trichotomy y y' with hlt | rfl | hlt
  · exact iff_of_true (hrow hx hlt) (.inl hlt)
  · omega
  · exact iff_of_false (hrow hx' hlt).le.not_gt (by omega)

theorem getElem?_gridCells {width height x y : ℕ} (hx : x < width) (hy : y < height) :
    (gridCells width height)[y * width + x]? = some (x, y) := by
  have hlt : y * width + x < (gridCells width height).length := by
    rw [length_gridCells]
    exact row_slot_lt hx hy
  have hslot : ((gridCells width height)[y * width + x].2 * width +
      (gridCells width height)[y * width + x].1) = y * width + x := by
    have hmap := congrArg (·[y * width + x]?) (map_gridCells width height)
    rw [List.getElem?_map, List.getElem?_eq_getElem hlt, List.getElem?_range
      ((row_slot_lt hx hy).trans_eq (mul_comm _ _))] at hmap
    exact Option.some_inj.1 hmap
  obtain ⟨hx', -⟩ := mem_gridCells.1 (getElem_mem hlt)
  have hle := (slot_lt_slot_iff hx hx').not.1 hslot.not_gt
  have hge := (slot_lt_slot_iff hx' hx).not.1 hslot.not_lt
  rw [List.getElem?_eq_getElem hlt, Option.some_inj]
  refine Prod.ext ?_ ?_ <;> dsimp only <;> omega

/-- The bounds contain some cells, and each of them is the coordinate of one. -/
structure GridBounds.Spans (bounds : GridBounds) (occupied : List (ℕ × ℕ)) : Prop where
  contains : ∀ cell ∈ occupied, (bounds.left ≤ cell.1 ∧ cell.1 ≤ bounds.right) ∧
    bounds.top ≤ cell.2 ∧ cell.2 ≤ bounds.bottom
  left : ∃ cell ∈ occupied, cell.1 = bounds.left
  right : ∃ cell ∈ occupied, cell.1 = bounds.right
  top : ∃ cell ∈ occupied, cell.2 = bounds.top
  bottom : ∃ cell ∈ occupied, cell.2 = bounds.bottom

theorem GridBounds.spans_include_start (hx : cell.1 < width) (hy : cell.2 < height) :
    ((⟨width, 0, height, 0⟩ : GridBounds).include cell).Spans [cell] := by
  constructor <;> simp [GridBounds.include, hx.le, hy.le]

/-- A coordinate that is the least or the greatest stays one or becomes that of the new cell. -/
theorem exists_append_singleton {occupied : List (ℕ × ℕ)} {coordinate : ℕ × ℕ → ℕ} {bound new : ℕ}
    (h : ∃ cell ∈ occupied, coordinate cell = bound) (hnew : new = bound ∨ new = coordinate cell) :
    ∃ other ∈ occupied ++ [cell], coordinate other = new := by
  obtain ⟨other, hmem, hother⟩ := h
  rcases hnew with rfl | rfl
  · exact ⟨other, mem_append_left _ hmem, hother⟩
  · exact ⟨cell, mem_append_right _ (mem_singleton_self cell), rfl⟩

theorem GridBounds.Spans.include {bounds : GridBounds} {occupied : List (ℕ × ℕ)}
    (h : bounds.Spans occupied) (cell : ℕ × ℕ) :
    (bounds.include cell).Spans (occupied ++ [cell]) := by
  constructor
  · intro other hother
    rcases mem_append.1 hother with hother | hother
    · have hcontains := h.contains other hother
      simp only [GridBounds.include]
      omega
    · rw [mem_singleton.1 hother]
      simp only [GridBounds.include]
      omega
  · exact exists_append_singleton h.left (min_choice _ _)
  · exact exists_append_singleton h.right (max_choice _ _)
  · exact exists_append_singleton h.top (min_choice _ _)
  · exact exists_append_singleton h.bottom (max_choice _ _)

theorem GridBounds.Spans.foldl {occupied : List (ℕ × ℕ)} :
    ∀ {bounds : GridBounds} {before : List (ℕ × ℕ)}, bounds.Spans before →
      (occupied.foldl GridBounds.include bounds).Spans (before ++ occupied) := by
  induction occupied with
  | nil =>
    intro bounds before h
    rwa [append_nil]
  | cons cell occupied ih =>
    intro bounds before h
    rw [append_cons]
    exact ih (h.include cell)

theorem GridBounds.spans_foldl_start {occupied : List (ℕ × ℕ)} (hne : occupied ≠ [])
    (hrange : ∀ cell ∈ occupied, cell.1 < width ∧ cell.2 < height) :
    (occupied.foldl GridBounds.include ⟨width, 0, height, 0⟩).Spans occupied := by
  cases occupied with
  | nil => exact absurd rfl hne
  | cons cell occupied =>
    obtain ⟨hx, hy⟩ := hrange cell mem_cons_self
    exact GridBounds.Spans.foldl (GridBounds.spans_include_start hx hy)

theorem foldlM_of_eq_some {α β : Type} {f : β → α → Option β} {g : β → α → β} {l : List α}
    (h : ∀ a ∈ l, ∀ b, f b a = some (g b a)) {b : β} : l.foldlM f b = some (l.foldl g b) := by
  induction l generalizing b with
  | nil => rfl
  | cons a l ih =>
    rw [foldlM_cons, h a mem_cons_self, foldl_cons]
    exact ih fun a' ha' => h a' (mem_cons_of_mem _ ha')

theorem mapM_of_eq_some {α β : Type} {f : α → Option β} {g : α → β} {l : List α}
    (h : ∀ a ∈ l, f a = some (g a)) : l.mapM f = some (l.map g) := by
  induction l with
  | nil => rfl
  | cons a l ih =>
    rw [mapM_cons, h a mem_cons_self, ih fun a' ha' => h a' (mem_cons_of_mem _ ha')]
    rfl

/-- A crafting grid with a stack for every cell. -/
structure CraftingGrid (κ : Type) where
  width : ℕ
  height : ℕ
  items : List (ItemStack κ)
  length_items : items.length = width * height

namespace CraftingGrid

variable {κ : Type} [ItemKind κ] (grid : CraftingGrid κ)

def asPositionedInput : Option (PositionedCraftingInput κ) :=
  positioned grid.width grid.height grid.items

def stack (slot : ℕ) : ItemStack κ := grid.items.getD slot .empty

def occupied : List (ℕ × ℕ) :=
  (gridCells grid.width grid.height).filter fun cell =>
    (grid.stack (cell.2 * grid.width + cell.1)).isFilled

variable {grid} {x y : ℕ}

omit [ItemKind κ] in
theorem slot_lt (hx : x < grid.width) (hy : y < grid.height) :
    y * grid.width + x < grid.items.length := by
  rw [grid.length_items]
  exact row_slot_lt hx hy

theorem getElem?_slot (hx : x < grid.width) (hy : y < grid.height) :
    grid.items[y * grid.width + x]? = some (grid.stack (y * grid.width + x)) := by
  rw [stack, getD_eq_getElem?_getD, List.getElem?_eq_getElem (slot_lt hx hy), Option.getD_some]

theorem bounds_eq : bounds grid.width grid.height grid.items =
    some (grid.occupied.foldl GridBounds.include ⟨grid.width, 0, grid.height, 0⟩) := by
  rw [bounds, occupied, foldl_filter]
  refine foldlM_of_eq_some fun cell hcell bounds => ?_
  obtain ⟨hx, hy⟩ := mem_gridCells.1 hcell
  rw [getElem?_slot hx hy]
  rfl

theorem mem_occupied : (x, y) ∈ grid.occupied ↔
    (x < grid.width ∧ y < grid.height) ∧ (grid.stack (y * grid.width + x)).isFilled = true := by
  rw [occupied, mem_filter, mem_gridCells]

variable (grid)

/-- The input is the part of the grid that its stacks span. -/
structure Spanned (positioned : PositionedCraftingInput κ) : Prop where
  width_pos : 0 < positioned.input.width
  height_pos : 0 < positioned.input.height
  left_le : positioned.left + positioned.input.width ≤ grid.width
  top_le : positioned.top + positioned.input.height ≤ grid.height
  items : positioned.input.items =
    (gridCells positioned.input.width positioned.input.height).map fun cell =>
      grid.stack (positioned.toGridSlot cell.1 cell.2 grid.width)
  count : positioned.input.ingredientCount =
    (positioned.input.items.filter isFilled).length
  contains : ∀ cell ∈ grid.occupied,
    (positioned.left ≤ cell.1 ∧ cell.1 < positioned.left + positioned.input.width) ∧
      positioned.top ≤ cell.2 ∧ cell.2 < positioned.top + positioned.input.height
  left : ∃ cell ∈ grid.occupied, cell.1 = positioned.left
  right : ∃ cell ∈ grid.occupied, cell.1 + 1 = positioned.left + positioned.input.width
  top : ∃ cell ∈ grid.occupied, cell.2 = positioned.top
  bottom : ∃ cell ∈ grid.occupied, cell.2 + 1 = positioned.top + positioned.input.height

variable {grid}

theorem asPositionedInput_empty (h : grid.occupied = []) :
    grid.asPositionedInput = some .empty := by
  rw [asPositionedInput, positioned]
  split_ifs with hzero
  · rfl
  · have hlt : (0 < grid.width ∨ 0 < grid.height) := by omega
    rw [bounds_eq, h]
    exact if_pos hlt

theorem items_eq_map_range : grid.items = (List.range grid.items.length).map grid.stack := by
  refine ext_getElem (by simp) fun i hi _ => ?_
  rw [getElem_map, getElem_range, stack, getD_eq_getElem?_getD,
    List.getElem?_eq_getElem hi, Option.getD_some]

theorem items_eq : grid.items = (gridCells grid.width grid.height).map fun cell =>
    grid.stack (cell.2 * grid.width + cell.1) := by
  have hmap : (gridCells grid.width grid.height).map (fun cell =>
      grid.stack (cell.2 * grid.width + cell.1)) =
      (List.range (grid.height * grid.width)).map grid.stack := by
    rw [← map_gridCells, map_map]
    rfl
  rw [hmap, mul_comm, ← grid.length_items]
  exact items_eq_map_range

theorem asPositionedInput_spanned (h : grid.occupied ≠ []) :
    ∃ positioned, grid.asPositionedInput = some positioned ∧ grid.Spanned positioned := by
  have hspans := GridBounds.spans_foldl_start h fun cell hcell => (mem_occupied.1 hcell).1
  rw [asPositionedInput, positioned, bounds_eq]
  generalize grid.occupied.foldl GridBounds.include ⟨grid.width, 0, grid.height, 0⟩ = bounds
    at hspans
  obtain ⟨left, right, top, bottom⟩ := bounds
  obtain ⟨hcontains, ⟨first, hfirst, hleft⟩, ⟨last, hlast, hright⟩, ⟨upper, hupper, htop⟩,
    ⟨lower, hlower, hbottom⟩⟩ := hspans
  dsimp only at hcontains hleft hright htop hbottom
  have hright' := (mem_occupied.1 hlast).1.1
  have hbottom' := (mem_occupied.1 hlower).1.2
  have hle := hcontains first hfirst
  have hspanned : ∀ {width height : ℕ} {items : List (ItemStack κ)},
      width = right - left + 1 → height = bottom - top + 1 →
      items = (gridCells width height).map (fun cell =>
        grid.stack ((cell.1 + left) + (cell.2 + top) * grid.width)) →
      grid.Spanned
        ⟨⟨width, height, items, (items.filter isFilled).length⟩, left, top⟩ := by
    rintro width height items rfl rfl hitems
    constructor <;> dsimp only
    · omega
    · omega
    · omega
    · omega
    · exact hitems
    · intro cell hcell
      have hcell' := hcontains cell hcell
      omega
    · exact ⟨first, hfirst, hleft⟩
    · exact ⟨last, hlast, by omega⟩
    · exact ⟨upper, hupper, htop⟩
    · exact ⟨lower, hlower, by omega⟩
  rw [if_neg (by omega)]
  dsimp only [bind, Option.bind]
  rw [if_neg (by omega)]
  by_cases hsame : right - left + 1 = grid.width ∧ bottom - top + 1 = grid.height
  · rw [if_pos hsame, new, if_pos grid.length_items]
    refine ⟨_, rfl, hspanned hsame.1.symm hsame.2.symm ?_⟩
    have hleftZero : left = 0 := by omega
    have htopZero : top = 0 := by omega
    subst hleftZero htopZero
    rw [items_eq]
    refine map_congr_left fun cell _ => ?_
    rw [add_zero, add_zero, add_comm]
  · have hitems : (gridCells (right - left + 1) (bottom - top + 1)).mapM (fun cell =>
        grid.items[(cell.1 + left) + (cell.2 + top) * grid.width]?) =
        some ((gridCells (right - left + 1) (bottom - top + 1)).map fun cell =>
          grid.stack ((cell.1 + left) + (cell.2 + top) * grid.width)) := by
      refine mapM_of_eq_some fun cell hcell => ?_
      obtain ⟨hx, hy⟩ := mem_gridCells.1 hcell
      rw [add_comm (cell.1 + left)]
      exact getElem?_slot (by omega) (by omega)
    rw [if_neg hsame, hitems]
    dsimp only
    rw [new, if_pos (by rw [length_map, length_gridCells])]
    exact ⟨_, rfl, hspanned rfl rfl rfl⟩

def slots (gridWidth : ℕ) (positioned : PositionedCraftingInput κ) : List ℕ :=
  (gridCells positioned.input.width positioned.input.height).map fun cell =>
    positioned.toGridSlot cell.1 cell.2 gridWidth

variable {positioned : PositionedCraftingInput κ}

omit [ItemKind κ] in
theorem toGridSlot_eq (x y : ℕ) : positioned.toGridSlot x y grid.width =
    (y + positioned.top) * grid.width + (x + positioned.left) := add_comm _ _

omit [ItemKind κ] in
theorem mem_slots {slot : ℕ} : slot ∈ slots grid.width positioned ↔
    ∃ x < positioned.input.width, ∃ y < positioned.input.height,
      positioned.toGridSlot x y grid.width = slot := by
  rw [slots, mem_map]
  constructor
  · rintro ⟨⟨x, y⟩, hmem, rfl⟩
    exact ⟨x, (mem_gridCells.1 hmem).1, y, (mem_gridCells.1 hmem).2, rfl⟩
  · rintro ⟨x, hx, y, hy, rfl⟩
    exact ⟨(x, y), mem_gridCells.2 ⟨hx, hy⟩, rfl⟩

namespace Spanned

variable (h : grid.Spanned positioned)

include h

theorem items_eq_map_slots :
    positioned.input.items = (slots grid.width positioned).map grid.stack := by
  rw [h.items, slots, map_map]
  rfl

theorem pairwise_slots : (slots grid.width positioned).Pairwise (· < ·) := by
  have hsorted : (gridCells positioned.input.width positioned.input.height).Pairwise
      fun cell cell' =>
      cell.2 * positioned.input.width + cell.1 < cell'.2 * positioned.input.width + cell'.1 := by
    rw [← pairwise_map (f := fun cell : ℕ × ℕ => cell.2 * positioned.input.width + cell.1)
      (R := (· < ·)), map_gridCells]
    exact pairwise_lt_range
  refine pairwise_map.2 (hsorted.imp_of_mem fun {cell cell'} hcell hcell' hlt => ?_)
  have hx := (mem_gridCells.1 hcell).1
  have hx' := (mem_gridCells.1 hcell').1
  have hle := h.left_le
  rw [slot_lt_slot_iff hx hx'] at hlt
  rw [toGridSlot_eq, toGridSlot_eq, slot_lt_slot_iff (by omega) (by omega)]
  omega

theorem mem_slots_of_isFilled {slot : ℕ} (hslot : slot < grid.items.length)
    (hfilled : (grid.stack slot).isFilled = true) : slot ∈ slots grid.width positioned := by
  have hwidth : 0 < grid.width := h.width_pos.trans_le ((le_add_left _ _).trans h.left_le)
  have hdiv : slot / grid.width * grid.width + slot % grid.width = slot := div_add_mod' _ _
  have hx : slot % grid.width < grid.width := mod_lt slot hwidth
  have hy : slot / grid.width < grid.height := by
    rw [div_lt_iff_lt_mul hwidth, mul_comm, ← grid.length_items]
    exact hslot
  have hcontains := h.contains (slot % grid.width, slot / grid.width)
    (mem_occupied.2 ⟨⟨hx, hy⟩, by rwa [hdiv]⟩)
  dsimp only at hcontains
  refine mem_slots.2 ⟨slot % grid.width - positioned.left, by omega,
    slot / grid.width - positioned.top, by omega, ?_⟩
  rw [toGridSlot_eq, Nat.sub_add_cancel hcontains.1.1, Nat.sub_add_cancel hcontains.2.1, hdiv]

theorem lt_of_mem_slots {slot : ℕ} (hmem : slot ∈ slots grid.width positioned) :
    slot < grid.items.length := by
  obtain ⟨x, hx, y, hy, rfl⟩ := mem_slots.1 hmem
  have hleft := h.left_le
  have htop := h.top_le
  rw [toGridSlot_eq]
  exact slot_lt (by omega) (by omega)

theorem get_eq (hx : x < positioned.input.width) (hy : y < positioned.input.height) :
    positioned.input.get x y = some (grid.stack (positioned.toGridSlot x y grid.width)) := by
  rw [CraftingInput.get, h.items, List.getElem?_map, getElem?_gridCells hx hy, Option.map_some]

theorem filter_items : positioned.input.items.filter isFilled =
    grid.items.filter isFilled := by
  have hslots : (slots grid.width positioned).filter (isFilled ∘ grid.stack) =
      (List.range grid.items.length).filter (isFilled ∘ grid.stack) := by
    refine (h.pairwise_slots.filter _).eq_of_mem_iff (pairwise_lt_range.filter _)
      fun slot => ?_
    rw [mem_filter, mem_filter, mem_range]
    refine and_congr_left fun hfilled => ?_
    exact ⟨h.lt_of_mem_slots, fun hlt => h.mem_slots_of_isFilled hlt hfilled⟩
  rw [h.items_eq_map_slots, filter_map, hslots, ← filter_map, ← items_eq_map_range]

end Spanned

/-- The cells of an input lead to the slots that hold their stacks, and one of them to each slot
that is not empty. -/
structure Traced (grid : CraftingGrid κ) (positioned : PositionedCraftingInput κ) : Prop where
  get_eq : ∀ x < positioned.input.width, ∀ y < positioned.input.height,
    positioned.toGridSlot x y grid.width < grid.items.length ∧
      positioned.input.get x y = grid.items[positioned.toGridSlot x y grid.width]?
  existsUnique : ∀ slot < grid.items.length, (grid.stack slot).isFilled = true →
    ∃! cell : ℕ × ℕ, (cell.1 < positioned.input.width ∧ cell.2 < positioned.input.height) ∧
      positioned.toGridSlot cell.1 cell.2 grid.width = slot

theorem Spanned.traced (h : grid.Spanned positioned) : grid.Traced positioned := by
  constructor
  · intro x hx y hy
    have hmem : positioned.toGridSlot x y grid.width ∈ slots grid.width positioned :=
      mem_slots.2 ⟨x, hx, y, hy, rfl⟩
    have hlt := h.lt_of_mem_slots hmem
    rw [h.get_eq hx hy, stack, getD_eq_getElem?_getD, List.getElem?_eq_getElem hlt,
      Option.getD_some]
    exact ⟨hlt, rfl⟩
  · intro slot hslot hfilled
    obtain ⟨x, hx, y, hy, hxy⟩ := mem_slots.1 (h.mem_slots_of_isFilled hslot hfilled)
    refine ⟨(x, y), ⟨⟨hx, hy⟩, hxy⟩, ?_⟩
    rintro ⟨x', y'⟩ ⟨⟨hx', hy'⟩, hxy'⟩
    dsimp only at hx' hy' hxy'
    have hleft := h.left_le
    rw [toGridSlot_eq] at hxy hxy'
    have hslots := hxy.trans hxy'.symm
    have hle := (slot_lt_slot_iff (by omega) (by omega)).not.1 hslots.not_gt
    have hge := (slot_lt_slot_iff (by omega) (by omega)).not.1 hslots.not_lt
    refine Prod.ext ?_ ?_ <;> dsimp only <;> omega

theorem traced_empty (h : grid.occupied = []) : grid.Traced .empty := by
  constructor
  · intro x hx
    exact absurd hx (not_lt_zero x)
  · intro slot hslot hfilled
    have hmem : grid.stack slot ∈ grid.items.filter isFilled := by
      refine mem_filter.2 ⟨?_, hfilled⟩
      rw [stack, getD_eq_getElem?_getD, List.getElem?_eq_getElem hslot, Option.getD_some]
      exact getElem_mem hslot
    rw [items_eq, filter_map] at hmem
    obtain ⟨cell, hcell, -⟩ := mem_map.1 hmem
    exact absurd (h ▸ hcell : cell ∈ ([] : List (ℕ × ℕ))) not_mem_nil

theorem filter_items_of_occupied (h : grid.occupied = []) :
    grid.items.filter isFilled = [] := by
  rw [items_eq, filter_map]
  exact congrArg _ h

end CraftingGrid

end BoundingBox

end Steel
