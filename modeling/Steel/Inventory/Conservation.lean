import Mathlib.Algebra.BigOperators.Pi
import Mathlib.Algebra.BigOperators.Ring.Finset
import Steel.Inventory.Menu

/-! # What a world of menus holds

The items of a world are those in all positions, on all cursors and dropped.
-/

namespace Steel

open World Int Function List

open Multiset (count)
open Finset (univ mem_univ)

/-- The menus of all players over one set of containers. -/
structure Setup (ι Pos κ : Type) where
  containers : Containers Pos
  menu : ι → Menu Pos κ
  maxStackSize_inventory : ∀ i k, containers.maxStackSize ((menu i).player.inventory k) = 99

/-- What is asked of a run: whether the cursors and inventories are bounded, and whether
creative players clone by clicks or by drags. -/
structure Mode where
  bounded : Prop
  cloneClicks : Prop
  cloneDrags : Prop

variable {ι Pos κ : Type} [ItemKind κ]

namespace Setup

variable (S : Setup ι Pos κ)

/-- Some slot views the position. In a bounded run the inventories count as well. -/
def Limited (mode : Mode) (pos : Pos) : Prop :=
  (∃ i, ∃ slot ∈ (S.menu i).slots, slot.pos = pos) ∨
    mode.bounded ∧ ∃ i k, (S.menu i).player.inventory k = pos

def Reaches (i : ι) (pos : Pos) : Prop :=
  (∃ slot ∈ (S.menu i).slots, slot.pos = pos) ∨ ∃ k, (S.menu i).player.inventory k = pos

/-- The stack is within the limits of the position. -/
structure Fits (mode : Mode) (pos : Pos) (stack : ItemStack κ) : Prop where
  nonneg : 0 ≤ stack.count
  le_container : S.Limited mode pos → stack.count ≤ S.containers.maxStackSize pos
  le_item : S.Limited mode pos → stack.count ≤ stack.maxStackSize

/-- What a player may carry. -/
structure Carriable (mode : Mode) (stack : ItemStack κ) : Prop where
  le_item : mode.bounded → stack.count ≤ stack.maxStackSize
  nonneg : ¬ mode.cloneDrags → 0 ≤ stack.count

structure MenuFits (mode : Mode) (i : ι) (state : MenuState κ) : Prop where
  carriable : Carriable mode state.carried
  quickcraft_ne : ¬ mode.cloneDrags → state.quickcraft ≠ some .clone
  slots_lt : ∀ k ∈ state.quickcraftSlots, k < (S.menu i).slots.length

structure Valid (mode : Mode) (w : World ι Pos κ) : Prop where
  fits : ∀ pos, S.Fits mode pos (w.cells pos)
  menus : ∀ i, S.MenuFits mode i (w.menus i)

variable {S} {mode : Mode}

variable {stack : ItemStack κ}

theorem Fits.of_le {pos : Pos} (h : S.Fits mode pos stack) {count : ℤ} (hcount : 0 ≤ count)
    (hle : count ≤ stack.count) : S.Fits mode pos ⟨stack.kind, count⟩ where
  nonneg := hcount
  le_container hv := le_trans hle (h.le_container hv)
  le_item hv := le_trans hle (h.le_item hv)

theorem Fits.empty {pos : Pos} (h : S.Fits mode pos stack) :
    S.Fits mode pos (.empty : ItemStack κ) where
  nonneg := le_refl 0
  le_container hv := Int.le_trans h.nonneg (h.le_container hv)
  le_item _ := Int.le_trans Int.one_nonneg (ItemKind.one_le_maxStackSize _)

theorem Carriable.empty : Carriable mode (.empty : ItemStack κ) where
  le_item _ := Int.le_trans Int.one_nonneg (ItemKind.one_le_maxStackSize _)
  nonneg _ := Int.le_refl 0

theorem Carriable.of_le {left : ItemStack κ} (h : Carriable mode stack)
    (hkind : left.kind = stack.kind) (hcount : 0 ≤ left.count) (hle : left.count ≤ stack.count) :
    Carriable mode left where
  le_item hb := by
    rw [ItemStack.maxStackSize, hkind]
    exact le_trans hle (h.le_item hb)
  nonneg _ := hcount

theorem fits_of_le_limit {slot : Slot Pos κ} (hcount : 0 ≤ stack.count)
    (h : stack.count ≤ slot.getMaxStackSizeForItem S.containers stack) :
    S.Fits mode slot.pos stack where
  nonneg := hcount
  le_container _ := le_trans h (min_le_left _ _)
  le_item _ := le_trans h (min_le_right _ _)

theorem fits_inventory {i : ι} {k : ℕ} (hcount : 0 ≤ stack.count)
    (h : stack.count ≤ stack.maxStackSize) :
    S.Fits mode ((S.menu i).player.inventory k) stack where
  nonneg := hcount
  le_container _ := by
    rw [S.maxStackSize_inventory]
    exact le_trans h (ItemKind.maxStackSize_le _)
  le_item _ := h

theorem Valid.cloneDrags {bounded cloneClicks : Prop}
    {w : World ι Pos κ} (hw : S.Valid ⟨bounded, cloneClicks, False⟩ w) (drags : Prop) :
    S.Valid ⟨bounded, cloneClicks, drags⟩ w where
  fits pos := ⟨(hw.fits pos).nonneg, (hw.fits pos).le_container, (hw.fits pos).le_item⟩
  menus j :=
    { carriable := ⟨(hw.menus j).carriable.le_item, fun _ => (hw.menus j).carriable.nonneg id⟩
      quickcraft_ne := fun _ => (hw.menus j).quickcraft_ne id
      slots_lt := (hw.menus j).slots_lt }

end Setup

section Items

variable [DecidableEq κ] [Fintype ι] [Fintype Pos]

def World.items (w : World ι Pos κ) : κ → ℤ :=
  ∑ pos, (w.cells pos).amount + ∑ i, (w.menus i).carried.amount +
    (w.dropped.map ItemStack.amount).sum

/-- The items of a world: those in all positions, on all cursors and dropped. -/
def World.bag (w : World ι Pos κ) : Multiset κ :=
  ∑ pos, (w.cells pos).bag + ∑ i, (w.menus i).carried.bag + (w.dropped.map ItemStack.bag).sum

theorem World.count_bag (w : World ι Pos κ) (k : κ) : (count k w.bag : ℤ) = w.items k := by
  have hdropped : ∀ drops : List (ItemStack κ),
      (count k (drops.map ItemStack.bag).sum : ℤ) =
        (drops.map ItemStack.amount).sum k := by
    intro drops
    induction drops with
    | nil => simp
    | cons stack drops ih => simp [ih, ItemStack.count_bag]
  simp [bag, items, Multiset.count_sum', Finset.sum_apply, Nat.cast_sum, hdropped,
    ItemStack.count_bag]

theorem World.bag_eq_of_items_eq {w w' : World ι Pos κ} (h : w.items = w'.items) :
    w.bag = w'.bag := by
  ext k
  have hk : (count k w.bag : ℤ) = count k w'.bag := by
    rw [count_bag, count_bag, h]
  exact ofNat_inj.mp hk

theorem World.items_setCell [DecidableEq Pos] (w : World ι Pos κ) (pos : Pos)
    (stack : ItemStack κ) :
    w.items - (w.setCell pos stack).items = (w.cells pos).amount - stack.amount := by
  have hupdate : (fun p => ((w.setCell pos stack).cells p).amount) =
      update (fun p => (w.cells p).amount) pos stack.amount := by
    funext p
    exact apply_update (fun _ => ItemStack.amount) w.cells pos stack p
  have hsum : ∑ p, ((w.setCell pos stack).cells p).amount =
      stack.amount + ∑ p ∈ univ \ {pos}, (w.cells p).amount := by
    rw [hupdate]
    exact Finset.sum_update_of_mem (mem_univ pos) _ _
  have hold := Finset.sum_eq_add_sum_sdiff_singleton_of_mem (mem_univ pos)
    fun p => (w.cells p).amount
  simp only [items, hsum, hold]
  simp only [setCell]
  abel

theorem World.items_setMenu [DecidableEq ι] (w : World ι Pos κ) (i : ι) (state : MenuState κ) :
    w.items - (w.setMenu i state).items = (w.menus i).carried.amount - state.carried.amount := by
  have hupdate : (fun j => ((w.setMenu i state).menus j).carried.amount) =
      update (fun j => (w.menus j).carried.amount) i state.carried.amount := by
    funext j
    exact apply_update (fun _ state => MenuState.carried state |>.amount) w.menus i state j
  have hsum : ∑ j, ((w.setMenu i state).menus j).carried.amount =
      state.carried.amount + ∑ j ∈ univ \ {i}, (w.menus j).carried.amount := by
    rw [hupdate]
    exact Finset.sum_update_of_mem (mem_univ i) _ _
  have hold := Finset.sum_eq_add_sum_sdiff_singleton_of_mem (mem_univ i)
    fun j => (w.menus j).carried.amount
  simp only [items, hsum, hold]
  simp only [setMenu]
  abel

theorem World.items_drop (w : World ι Pos κ) (stack : ItemStack κ) :
    w.items - (w.drop stack).items = -stack.amount := by
  simp only [items, drop, map_append, sum_append, map_singleton,
    sum_singleton]
  abel

/-- The account of the items while every player may have some in hand. -/
def Setup.account (S : Setup ι Pos κ) (mode : Mode) : Account (World ι Pos κ) (κ → ℤ) :=
  ⟨S.Valid mode, items⟩

end Items

/-- The access of a player: others leave the player's own menu alone, and the player changes
nothing but what the player's menu reaches. -/
structure PlayerAccess (S : Setup ι Pos κ) (i : ι) extends Access (World ι Pos κ) where
  menu_eq : ∀ {w t}, rely w t → t.menus i = w.menus i
  guar_of : ∀ {w t}, (∀ pos, ¬ S.Reaches i pos → t.cells pos = w.cells pos) →
    (∀ j, j ≠ i → t.menus j = w.menus j) → guar w t

/-- What may have become of a world after a change of a position. -/
structure PlayerAccess.After {S : Setup ι Pos κ} {i : ι} (A : PlayerAccess S i) (pos : Pos)
    (w t : World ι Pos κ) : Prop where
  rely : A.rely w t
  eq_of_unowned : S.containers.owned pos = false → t = w

end Steel
