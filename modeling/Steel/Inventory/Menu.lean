import Steel.Inventory.ItemStack
import Steel.Lib.Locked

/-! # Menu clicks

The click handlers of a menu of normal and restricted slots, for a kind without hooks of its own. A
slot is a view of one position of a container with its own rules for placing and picking up.
-/

namespace Steel

section

open Locked Function

inductive DragKind where
  | left
  | right
  | clone
  deriving DecidableEq

/-- What a menu keeps for its player from click to click. -/
structure MenuState (κ : Type) where
  carried : ItemStack κ
  quickcraft : Option DragKind
  quickcraftSlots : List ℕ
  deriving DecidableEq

/-- The positions of all containers, the menus of all players and what was dropped. -/
structure World (ι Pos κ : Type) where
  cells : Pos → ItemStack κ
  menus : ι → MenuState κ
  dropped : List (ItemStack κ)

/-- A view of a position. A restricted slot has rules of its own, and a pickup rule may look
at everything that is locked. -/
structure Slot (Pos κ : Type) where
  pos : Pos
  restricted : Bool
  mayPlace : ItemStack κ → Bool
  mayPickup : (Pos → ItemStack κ) → Bool

/-- The size limit of the container that a position belongs to, and whether it has an owner. -/
structure Containers (Pos : Type) where
  maxStackSize : Pos → ℤ
  owned : Pos → Bool

/-- The positions of the player's inventory and the selected one. -/
structure Player (Pos : Type) where
  inventory : ℕ → Pos
  selected : ℕ
  hasInfiniteMaterials : Bool
  canDropItems : Bool

variable {ι Pos κ : Type}

namespace World

section Cells

variable [DecidableEq Pos] (w : World ι Pos κ)

def setCell (pos : Pos) (stack : ItemStack κ) : World ι Pos κ :=
  { w with cells := update w.cells pos stack }

@[simp] theorem cells_setCell_self (pos : Pos) (stack : ItemStack κ) :
    (w.setCell pos stack).cells pos = stack := update_self ..

theorem cells_setCell_of_ne {pos p : Pos} (stack : ItemStack κ)
    (h : p ≠ pos) : (w.setCell pos stack).cells p = w.cells p := update_of_ne h ..

theorem cells_setCell_copy (pos p : Pos) : (w.setCell pos (w.cells p)).cells p = w.cells p := by
  by_cases h : p = pos
  · subst h
    exact w.cells_setCell_self p _
  · exact w.cells_setCell_of_ne _ h

@[simp] theorem menus_setCell (pos : Pos) (stack : ItemStack κ) :
    (w.setCell pos stack).menus = w.menus := rfl

end Cells

section Menus

variable [DecidableEq ι] (w : World ι Pos κ)

def setMenu (i : ι) (menu : MenuState κ) : World ι Pos κ :=
  { w with menus := update w.menus i menu }

@[simp] theorem menus_setMenu_self (i : ι) (menu : MenuState κ) :
    (w.setMenu i menu).menus i = menu := update_self ..

theorem menus_setMenu_of_ne {i j : ι} (menu : MenuState κ) (h : j ≠ i) :
    (w.setMenu i menu).menus j = w.menus j := update_of_ne h ..

end Menus

def drop (w : World ι Pos κ) (stack : ItemStack κ) : World ι Pos κ :=
  { w with dropped := w.dropped ++ [stack] }

@[simp] theorem cells_drop (w : World ι Pos κ) (stack : ItemStack κ) :
    (w.drop stack).cells = w.cells := rfl

end World

variable [DecidableEq Pos] [DecidableEq κ] [ItemKind κ]

abbrev GuardM (ι Pos κ : Type) := Locked (World ι Pos κ)

section Guard

variable (containers : Containers Pos)

def notifyOwner (pos : Pos) : GuardM ι Pos κ Unit :=
  if containers.owned pos then .release (.ret ()) else .ret ()

def getItem (slot : Slot Pos κ) : GuardM ι Pos κ (ItemStack κ) := do
  return (← read).cells slot.pos

def setItemNoUpdate (pos : Pos) (stack : ItemStack κ) : GuardM ι Pos κ Unit :=
  modify (·.setCell pos stack)

/-- `ContainerLockGuard::set_item`. -/
def guardSetItem (pos : Pos) (stack : ItemStack κ) : GuardM ι Pos κ Unit := do
  setItemNoUpdate pos stack
  notifyOwner containers pos

/-- `ContainerLockGuard::remove_item`. -/
def guardRemoveItem (pos : Pos) (amount : ℤ) : GuardM ι Pos κ (ItemStack κ) := do
  let item := (← read).cells pos
  if item.IsEmpty ∨ amount ≤ 0 then return .empty
  else
    let (removed, left) := item.split amount
    setItemNoUpdate pos left
    if removed.IsEmpty then return removed
    else
      notifyOwner containers pos
      return removed

/-- A dropped stack is handed to the world while nothing is locked. -/
def dropUnlocked (stack : ItemStack κ) : GuardM ι Pos κ Unit := do
  if stack.IsEmpty then .release (.ret ())
  else
    modify (·.drop stack)
    .release (.ret ())

namespace Slot

variable (slot : Slot Pos κ)

def setChanged : GuardM ι Pos κ Unit := notifyOwner containers slot.pos

def setItem (stack : ItemStack κ) : GuardM ι Pos κ Unit := do
  guardSetItem containers slot.pos stack
  slot.setChanged containers

def setByPlayer (stack _previous : ItemStack κ) : GuardM ι Pos κ Unit :=
  slot.setItem containers stack

def getMaxStackSizeForItem (stack : ItemStack κ) : ℤ :=
  min (containers.maxStackSize slot.pos) stack.maxStackSize

def allowModification (cells : Pos → ItemStack κ) : Bool :=
  slot.mayPickup cells && slot.mayPlace (cells slot.pos)

/-- A normal slot asks its container to remove the items, which notifies the owner. A
restricted one splits the stack in place. -/
def remove (amount : ℤ) : GuardM ι Pos κ (ItemStack κ) := do
  let item ← getItem slot
  if amount ≤ 0 ∨ item.IsEmpty then return .empty
  else if slot.restricted then
    let (removed, left) := item.split amount
    setItemNoUpdate slot.pos left
    return removed
  else guardRemoveItem containers slot.pos amount

def tryRemove (amount maxAmount : ℤ) : GuardM ι Pos κ (Option (ItemStack κ)) := do
  let cells := (← read).cells
  if slot.mayPickup cells = false then return none
  else if slot.allowModification cells = false ∧ maxAmount < (cells slot.pos).shownCount then
    return none
  else
    let result ← slot.remove containers (min amount maxAmount)
    if result.IsEmpty then return none
    else
      let item ← getItem slot
      if item.IsEmpty then
        slot.setByPlayer containers .empty result
        return some result
      else return some result

def onTake : GuardM ι Pos κ Unit := slot.setChanged containers

def safeTake (amount maxAmount : ℤ) : GuardM ι Pos κ (ItemStack κ) := do
  match ← slot.tryRemove containers amount maxAmount with
  | some taken =>
    slot.onTake containers
    return taken
  | none => return .empty

def safeInsert (input : ItemStack κ) (amount : ℤ) : GuardM ι Pos κ (ItemStack κ) := do
  if input.IsEmpty ∨ slot.mayPlace input = false then return input
  else
    let slotStack ← getItem slot
    let transferable := min (min amount input.count)
      (slot.getMaxStackSizeForItem containers input - slotStack.count)
    if transferable ≤ 0 then return input
    else if slotStack.IsEmpty then
      let (placed, left) := input.split transferable
      slot.setByPlayer containers placed slotStack
      return left
    else if slotStack.IsSameItemSameComponents input then
      slot.setByPlayer containers (slotStack.grow transferable) slotStack
      return input.shrink transferable
    else return input

end Slot

end Guard

namespace Player

variable (player : Player Pos)

def inventoryMaxStackSize : ℤ := 99

def topUp (maxSize : ℤ) : List ℕ → ItemStack κ → GuardM ι Pos κ (ItemStack κ)
  | [], stack => return stack
  | slot :: slots, stack => do
    if stack.IsEmpty then return stack
    else
      let existing := (← read).cells (player.inventory slot)
      if ¬ existing.IsEmpty ∧ existing.IsSameItemSameComponents stack ∧
          0 < maxSize - existing.shownCount then
        let toAdd := min stack.shownCount (maxSize - existing.shownCount)
        setItemNoUpdate (player.inventory slot) (existing.grow toAdd)
        topUp maxSize slots (stack.shrink toAdd)
      else topUp maxSize slots stack

def fillEmpty (maxSize : ℤ) : List ℕ → ItemStack κ → GuardM ι Pos κ (ItemStack κ)
  | [], stack => return stack
  | slot :: slots, stack => do
    if stack.IsEmpty then return stack
    else
      let existing := (← read).cells (player.inventory slot)
      if existing.IsEmpty then
        let (placed, left) := stack.split (min stack.shownCount maxSize)
        setItemNoUpdate (player.inventory slot) placed
        fillEmpty maxSize slots left
      else fillEmpty maxSize slots stack

/-- `PlayerInventory::add`, with what could not be added. The selected slot and the offhand
come first. -/
def add (stack : ItemStack κ) : GuardM ι Pos κ (Bool × ItemStack κ) := do
  if stack.IsEmpty then return (true, stack)
  else
    let maxSize := min inventoryMaxStackSize stack.maxStackSize
    let stack ←
      if stack.isStackable then
        player.topUp maxSize ([player.selected, 40] ++
          (List.range 36).filter (· ≠ player.selected)) stack
      else pure stack
    let stack ← player.fillEmpty maxSize (List.range 36) stack
    return (decide stack.IsEmpty, stack)

end Player

end

open Locked

inductive MouseButton where
  | left
  | right
  deriving DecidableEq

inductive FillDirection where
  | forward
  | backward
  deriving DecidableEq

inductive SwapTarget where
  | hotbar (index : ℕ)
  | offhand
  deriving DecidableEq

def SwapTarget.inventorySlot : SwapTarget → ℕ
  | hotbar index => index
  | offhand => 40

inductive QuickCraft where
  | start (kind : DragKind)
  | addSlot (slot : ℕ)
  | finish
  deriving DecidableEq

inductive Click where
  | pickup (slot : ℕ) (button : MouseButton)
  | dropCarried (button : MouseButton)
  | quickMove (slot : ℕ)
  | swap (slot : ℕ) (target : SwapTarget)
  | clone (slot : ℕ)
  | throw (slot : ℕ) (wholeStack : Bool)
  | pickupAll (slot : ℕ) (direction : FillDirection)
  | quickCraft (action : QuickCraft)
  deriving DecidableEq

def Click.isValidFor (slotCount : ℕ) : Click → Bool
  | pickup slot _ => slot < slotCount
  | quickMove slot => slot < slotCount
  | clone slot => slot < slotCount
  | throw slot _ => slot < slotCount
  | pickupAll slot _ => slot < slotCount
  | quickCraft (.addSlot slot) => slot < slotCount
  | swap slot (.hotbar index) => decide (slot < slotCount) && decide (index < 9)
  | swap slot .offhand => slot < slotCount
  | dropCarried _ => true
  | quickCraft (.start _) => true
  | quickCraft .finish => true

/-- A range of slots. -/
structure SlotRange where
  start : ℕ
  stop : ℕ
  deriving DecidableEq

/-- The slots of a range in the order in which they are filled. -/
def SlotRange.walk (range : SlotRange) : FillDirection → List ℕ
  | .forward => List.range' range.start (range.stop - range.start)
  | .backward => (List.range' range.start (range.stop - range.start)).reverse

structure Route where
  source : SlotRange
  targets : List SlotRange
  direction : FillDirection
  deriving DecidableEq

/-- The slots of a menu with the routes of its layout, and the two questions that are asked
of its kind. Routes lead to slots of the menu. -/
structure Menu (Pos κ : Type) where
  slots : List (Slot Pos κ)
  routes : List Route
  routes_le : ∀ route ∈ routes, ∀ target ∈ route.targets, target.stop ≤ slots.length
  canDragTo : ℕ → Bool
  canTakeItemForPickAll : ItemStack κ → ℕ → Bool
  player : Player Pos

def MouseButton.requested {κ : Type} (button : MouseButton) (carried : ItemStack κ) : ℤ :=
  if button = left then carried.count else 1

def MouseButton.amount {κ : Type} (button : MouseButton) (slotItem : ItemStack κ) : ℤ :=
  if button = left then slotItem.count else (slotItem.count + 1) / 2

namespace DragKind

variable {κ : Type} [ItemKind κ]

/-- `place_count`. The quotient of floats has the floor of the quotient of integers, since
counts are far below the precision of a float. -/
def placeCount (kind : DragKind) (slotCount : ℕ) (carried : ItemStack κ) : ℤ :=
  match kind with
  | left => carried.count / slotCount
  | right => 1
  | clone => carried.maxStackSize

end DragKind

section Clicks

variable {ι Pos κ : Type} [DecidableEq ι] [DecidableEq Pos] [DecidableEq κ] [ItemKind κ]

/-- `can_item_quick_replace` with `ignore_size`. -/
def canItemQuickReplace (slotItem carried : ItemStack κ) : Prop :=
  slotItem.IsEmpty ∨
    carried.IsSameItemSameComponents slotItem ∧ slotItem.count ≤ carried.maxStackSize

instance (slotItem carried : ItemStack κ) : Decidable (canItemQuickReplace slotItem carried) :=
  inferInstanceAs (Decidable (_ ∨ _ ∧ _))

namespace Menu

variable (containers : Containers Pos) (menu : Menu Pos κ) (i : ι)

def getMenu : GuardM ι Pos κ (MenuState κ) := do
  return (← read).menus i

def modifyMenu (f : MenuState κ → MenuState κ) : GuardM ι Pos κ Unit :=
  modify fun w => w.setMenu i (f (w.menus i))

def setCarried (stack : ItemStack κ) : GuardM ι Pos κ Unit :=
  modifyMenu i fun state => { state with carried := stack }

def resetQuickCraft : GuardM ι Pos κ Unit :=
  modifyMenu i fun state => { state with quickcraft := none, quickcraftSlots := [] }

def getSlot (index : ℕ) : GuardM ι Pos κ (Slot Pos κ) :=
  match menu.slots[index]? with
  | some slot => .ret slot
  | none => .fail

def updateQuickMoveSource (slot : Slot Pos κ) (remaining previous : ItemStack κ) :
    GuardM ι Pos κ Unit := do
  if remaining.IsEmpty then slot.setByPlayer containers .empty previous
  else
    setItemNoUpdate slot.pos remaining
    slot.setChanged containers

/-- The first pass of `move_item_stack_to`: stack onto existing items. It returns what is left
and whether anything changed. -/
def stackPass (sourceSlot : ℕ) (sourceKey : Pos) :
    List ℕ → ItemStack κ → Bool → GuardM ι Pos κ (ItemStack κ × Bool)
  | [], itemStack, changed => return (itemStack, changed)
  | destSlot :: rest, itemStack, changed => do
    if itemStack.IsEmpty then return (itemStack, changed)
    else
      let slot ← menu.getSlot destSlot
      if destSlot = sourceSlot ∨ slot.pos = sourceKey then
        stackPass sourceSlot sourceKey rest itemStack changed
      else
        let target ← getItem slot
        if ¬ target.IsEmpty ∧ itemStack.IsSameItemSameComponents target then
          let totalStack := target.count + itemStack.count
          let maxStackSize := slot.getMaxStackSizeForItem containers target
          if totalStack ≤ maxStackSize then
            setItemNoUpdate slot.pos (target.setCount totalStack)
            slot.setChanged containers
            stackPass sourceSlot sourceKey rest (itemStack.setCount 0) true
          else if target.count < maxStackSize then
            setItemNoUpdate slot.pos (target.setCount maxStackSize)
            slot.setChanged containers
            stackPass sourceSlot sourceKey rest
              (itemStack.shrink (maxStackSize - target.count)) true
          else stackPass sourceSlot sourceKey rest itemStack changed
        else stackPass sourceSlot sourceKey rest itemStack changed

/-- The second pass: place into the first empty slot that takes the item. -/
def placePass (sourceSlot : ℕ) (sourceKey : Pos) :
    List ℕ → ItemStack κ → Bool → GuardM ι Pos κ (ItemStack κ × Bool)
  | [], itemStack, changed => return (itemStack, changed)
  | destSlot :: rest, itemStack, changed => do
    let slot ← menu.getSlot destSlot
    if destSlot = sourceSlot ∨ slot.pos = sourceKey then
      placePass sourceSlot sourceKey rest itemStack changed
    else
      let target ← getItem slot
      if target.IsEmpty ∧ slot.mayPlace itemStack = true then
        let maxStackSize := slot.getMaxStackSizeForItem containers itemStack
        let (placed, left) := itemStack.split (min itemStack.count maxStackSize)
        slot.setByPlayer containers placed .empty
        slot.setChanged containers
        return (left, true)
      else placePass sourceSlot sourceKey rest itemStack changed

def moveItemStackTo (sourceSlot : ℕ) (sourceKey : Pos) (itemStack : ItemStack κ)
    (range : SlotRange) (direction : FillDirection) : GuardM ι Pos κ (ItemStack κ × Bool) := do
  if range.stop ≤ range.start then return (itemStack, false)
  else
    let (itemStack, changed) ←
      if itemStack.isStackable then
        menu.stackPass containers sourceSlot sourceKey (range.walk direction) itemStack false
      else pure (itemStack, false)
    if itemStack.IsEmpty then return (itemStack, changed)
    else menu.placePass containers sourceSlot sourceKey (range.walk direction) itemStack changed

/-- The targets of a route are tried until one of them takes something. -/
def moveToTargets (sourceSlot : ℕ) (sourceKey : Pos) (direction : FillDirection) :
    List SlotRange → ItemStack κ → GuardM ι Pos κ (ItemStack κ × Bool)
  | [], remaining => return (remaining, false)
  | target :: targets, remaining => do
    let (remaining, moved) ←
      menu.moveItemStackTo containers sourceSlot sourceKey remaining target direction
    if moved then return (remaining, true)
    else moveToTargets sourceSlot sourceKey direction targets remaining

def routeOf (slotIndex : ℕ) : Option Route :=
  menu.routes.find? fun route =>
    decide (route.source.start ≤ slotIndex) && decide (slotIndex < route.source.stop)

/-- `MenuLayout::quick_move`. It returns the original item, or an empty one if nothing moved. -/
def quickMove (slotIndex : ℕ) : GuardM ι Pos κ (ItemStack κ) := do
  match menu.routeOf slotIndex with
  | none => return .empty
  | some route =>
    let slot ← menu.getSlot slotIndex
    let cells := (← read).cells
    let clicked := cells slot.pos
    if clicked.IsEmpty then return .empty
    else if slot.mayPickup cells = false then return .empty
    else
      let (remaining, moved) ←
        menu.moveToTargets containers slotIndex slot.pos route.direction route.targets clicked
      if moved = false then return .empty
      else
        updateQuickMoveSource containers slot remaining clicked
        if remaining.count = clicked.count then return .empty
        else
          slot.onTake containers
          return clicked

/-- The loop of `do_quick_move`, for as long as the slot holds the item that was moved. -/
def quickMoveLoop (slotIndex : ℕ) (slot : Slot Pos κ) : ℕ → ItemStack κ → GuardM ι Pos κ Unit
  | 0, _ => .fail
  | fuel + 1, result => do
    if result.IsEmpty then return ()
    else
      let currentItem ← getItem slot
      if currentItem.IsSameItem result then
        let result ← menu.quickMove containers slotIndex
        quickMoveLoop slotIndex slot fuel result
      else return ()

def doQuickMove (fuel slotIndex : ℕ) : GuardM ι Pos κ Unit := do
  let slot ← menu.getSlot slotIndex
  let cells := (← read).cells
  if slot.mayPickup cells = false then return ()
  else if (cells slot.pos).IsEmpty then return ()
  else
    let result ← menu.quickMove containers slotIndex
    menu.quickMoveLoop containers slotIndex slot fuel result

/-- What `do_pickup` does with the stack that was carried: place, take, stack or swap. -/
def pickupItem (slot : Slot Pos κ) (button : MouseButton) (cells : Pos → ItemStack κ)
    (slotItem carried : ItemStack κ) : GuardM ι Pos κ Unit := do
  if slotItem.IsEmpty then
    if ¬ carried.IsEmpty ∧ slot.mayPlace carried = true then
      let left ← slot.safeInsert containers carried (button.requested carried)
      setCarried i left
    else setCarried i carried
  else if carried.IsEmpty then
    match ← slot.tryRemove containers (button.amount slotItem) 2147483647 with
    | some taken =>
      slot.onTake containers
      setCarried i taken
    | none => return ()
  else if slotItem.IsSameItemSameComponents carried then
    if slot.mayPickup cells = true ∧ slot.mayPlace carried = true then
      let left ← slot.safeInsert containers carried (button.requested carried)
      setCarried i left
    else if slot.mayPickup cells = true ∧ 0 < carried.maxStackSize - carried.count then
      match ← slot.tryRemove containers slotItem.count (carried.maxStackSize - carried.count) with
      | some taken =>
        slot.onTake containers
        setCarried i (carried.grow taken.count)
      | none => setCarried i carried
    else setCarried i carried
  else if slot.mayPickup cells = true ∧ slot.mayPlace carried = true ∧
      carried.count ≤ slot.getMaxStackSizeForItem containers carried then
    slot.setByPlayer containers carried slotItem
    setCarried i slotItem
  else setCarried i carried

/-- A normal click. The carried stack is taken off the cursor first. -/
def doPickup (slotIndex : ℕ) (button : MouseButton) : GuardM ι Pos κ Unit := do
  let slot ← menu.getSlot slotIndex
  let world ← read
  setCarried i .empty
  pickupItem containers i slot button world.cells (world.cells slot.pos) (world.menus i).carried
  slot.setChanged containers

/-- The loop of `finish_quick_craft` over the dragged slots, with what remains. -/
def distribute (kind : DragKind) (source : ItemStack κ) (slotCount : ℕ) :
    List ℕ → ℤ → GuardM ι Pos κ ℤ
  | [], remaining => return remaining
  | slotIndex :: rest, remaining => do
    let slot ← menu.getSlot slotIndex
    let slotItem ← getItem slot
    if canItemQuickReplace slotItem source ∧ slot.mayPlace source = true ∧
        (kind = .clone ∨ (slotCount : ℤ) ≤ source.count) ∧ menu.canDragTo slotIndex = true then
      let currentCount := slotItem.shownCount
      let maxSize := min source.maxStackSize (slot.getMaxStackSizeForItem containers source)
      let newCount := min (kind.placeCount slotCount source + currentCount) maxSize
      slot.setByPlayer containers (source.setCount newCount) slotItem
      distribute kind source slotCount rest (remaining - (newCount - currentCount))
    else distribute kind source slotCount rest remaining

def finishQuickCraft (kind : DragKind) : GuardM ι Pos κ Unit := do
  let state ← getMenu i
  match state.quickcraftSlots with
  | [] => resetQuickCraft i
  | [slot] =>
    -- a single slot is a normal click
    resetQuickCraft i
    match kind with
    | .left => menu.doPickup containers i slot .left
    | .right => menu.doPickup containers i slot .right
    | .clone => return ()
  | slots =>
    let source := state.carried
    if source.IsEmpty then resetQuickCraft i
    else
      let remaining ← menu.distribute containers kind source slots.length slots source.count
      setCarried i (source.setCount remaining)
      resetQuickCraft i

/-- `do_quick_craft`. A drag goes from its start over its slots to its end. -/
def doQuickCraft (action : QuickCraft) : GuardM ι Pos κ Unit := do
  let world ← read
  let state := world.menus i
  match action, state.quickcraft with
  | .start kind, none =>
    if state.carried.IsEmpty then resetQuickCraft i
    else if kind = .clone ∧ menu.player.hasInfiniteMaterials = false then resetQuickCraft i
    else modifyMenu i fun state => { state with quickcraft := some kind, quickcraftSlots := [] }
  | .addSlot slotIndex, some kind =>
    if state.carried.IsEmpty then resetQuickCraft i
    else
      let slot ← menu.getSlot slotIndex
      if canItemQuickReplace (world.cells slot.pos) state.carried ∧
          slot.mayPlace state.carried = true ∧
          (kind = .clone ∨ (state.quickcraftSlots.length : ℤ) < state.carried.count) ∧
          menu.canDragTo slotIndex = true ∧ slotIndex ∉ state.quickcraftSlots then
        modifyMenu i fun state =>
          { state with quickcraftSlots := state.quickcraftSlots ++ [slotIndex] }
      else return ()
  | .finish, some kind =>
    if state.carried.IsEmpty then resetQuickCraft i
    else menu.finishQuickCraft containers i kind
  | _, _ => resetQuickCraft i

def dropItem (stack : ItemStack κ) : GuardM ι Pos κ Unit :=
  if stack.IsEmpty then .ret () else modify (·.drop stack)

def dropCarried (button : MouseButton) : GuardM ι Pos κ Unit := do
  let state ← getMenu i
  if state.carried.IsEmpty then return ()
  else
    match button with
    | .left =>
      setCarried i .empty
      dropItem state.carried
    | .right =>
      let (dropped, left) := state.carried.split 1
      setCarried i left
      dropItem dropped

def doClone (slotIndex : ℕ) : GuardM ι Pos κ Unit := do
  let state ← getMenu i
  if menu.player.hasInfiniteMaterials = false ∨ ¬ state.carried.IsEmpty then return ()
  else
    let slot ← menu.getSlot slotIndex
    let slotItem ← getItem slot
    if slotItem.IsEmpty then return ()
    else setCarried i (slotItem.copyWithCount slotItem.maxStackSize)

/-- The loop of `do_throw`, for as long as the slot is filled again with the same item. -/
def throwLoop (slot : Slot Pos κ) (dropped : ItemStack κ) : ℕ → GuardM ι Pos κ Unit
  | 0 => .fail
  | fuel + 1 => do
    let cells := (← read).cells
    let currentItem := cells slot.pos
    if slot.mayPickup cells = false ∨ menu.player.canDropItems = false ∨
        currentItem.IsEmpty ∨ ¬ currentItem.IsSameItem dropped then return ()
    else
      let moreDropped ← slot.safeTake containers currentItem.count 2147483647
      if moreDropped.IsEmpty then return ()
      else
        dropUnlocked moreDropped
        throwLoop slot dropped fuel

/-- The stack that was taken is dropped while nothing is locked. -/
def dropTaken (dropped : ItemStack κ) : GuardM ι Pos κ Unit :=
  if dropped.IsEmpty then .ret () else dropUnlocked dropped

def doThrow (fuel slotIndex : ℕ) (wholeStack : Bool) : GuardM ι Pos κ Unit := do
  let state ← getMenu i
  if ¬ state.carried.IsEmpty then return ()
  else
    let slot ← menu.getSlot slotIndex
    let cells := (← read).cells
    if slot.mayPickup cells = false ∨ menu.player.canDropItems = false then return ()
    else
      let amount := if wholeStack then (cells slot.pos).count else 1
      let dropped ← slot.safeTake containers amount 2147483647
      dropTaken dropped
      if wholeStack then menu.throwLoop containers slot dropped fuel
      else return ()

def doSwap (slotIndex : ℕ) (target : SwapTarget) : GuardM ι Pos κ Unit := do
  let targetSlot ← menu.getSlot slotIndex
  let cells := (← read).cells
  let inventoryPos := menu.player.inventory target.inventorySlot
  let targetItem := cells targetSlot.pos
  let sourceItem := cells inventoryPos
  if sourceItem.IsEmpty ∧ targetItem.IsEmpty then return ()
  else if sourceItem.IsEmpty then
    if targetSlot.mayPickup cells = true then
      setItemNoUpdate inventoryPos targetItem
      targetSlot.setByPlayer containers .empty targetItem
      targetSlot.onTake containers
    else return ()
  else if targetItem.IsEmpty then
    if targetSlot.mayPlace sourceItem = true then
      let maxSize := targetSlot.getMaxStackSizeForItem containers sourceItem
      if maxSize < sourceItem.count then
        let (toPlace, left) := sourceItem.split maxSize
        setItemNoUpdate inventoryPos left
        targetSlot.setByPlayer containers toPlace .empty
      else
        setItemNoUpdate inventoryPos .empty
        targetSlot.setByPlayer containers sourceItem .empty
    else return ()
  else if targetSlot.mayPickup cells = true ∧ targetSlot.mayPlace sourceItem = true then
    let maxSize := targetSlot.getMaxStackSizeForItem containers sourceItem
    if maxSize < sourceItem.count then
      -- the source is too big: place a part and return the target to the inventory
      let (toPlace, left) := sourceItem.split maxSize
      setItemNoUpdate inventoryPos left
      targetSlot.setByPlayer containers toPlace targetItem
      targetSlot.onTake containers
      let (added, displaced) ← menu.player.add targetItem
      if added = false ∧ menu.player.hasInfiniteMaterials = false then dropUnlocked displaced
      else return ()
    else
      setItemNoUpdate inventoryPos targetItem
      targetSlot.setByPlayer containers sourceItem targetItem
      targetSlot.onTake containers
  else return ()

/-- One pass of `do_pickup_all`. The first skips full stacks. -/
def pickupAllPass (secondPass : Bool) (carriedItem : ItemStack κ) : List ℕ → GuardM ι Pos κ Unit
  | [] => return ()
  | index :: rest => do
    let world ← read
    let carried := (world.menus i).carried
    let maxStack := carriedItem.maxStackSize
    if carried.count < maxStack then
      let targetSlot ← menu.getSlot index
      let targetItem := world.cells targetSlot.pos
      if ¬ targetItem.IsEmpty ∧ canItemQuickReplace targetItem carriedItem ∧
          targetSlot.mayPickup world.cells = true ∧
          menu.canTakeItemForPickAll carriedItem index = true ∧
          (secondPass = true ∨ targetItem.count ≠ targetItem.maxStackSize) then
        let canTake := maxStack - carried.count
        let removed ← targetSlot.safeTake containers (min targetItem.count canTake) canTake
        modifyMenu i fun state =>
          { state with carried := state.carried.grow (min removed.count canTake) }
        pickupAllPass secondPass carriedItem rest
      else pickupAllPass secondPass carriedItem rest
    else return ()

def doPickupAll (slotIndex : ℕ) (direction : FillDirection) : GuardM ι Pos κ Unit := do
  let slot ← menu.getSlot slotIndex
  let world ← read
  let carried := (world.menus i).carried
  if carried.IsEmpty ∨
      (¬ (world.cells slot.pos).IsEmpty ∧ slot.mayPickup world.cells = true) then return ()
  else
    let order := SlotRange.walk ⟨0, menu.slots.length⟩ direction
    menu.pickupAllPass containers i false carried order
    menu.pickupAllPass containers i true carried order

def clickSlot (fuel : ℕ) : Click → GuardM ι Pos κ Unit
  | .pickup slot button => menu.doPickup containers i slot button
  | .dropCarried button => dropCarried i button
  | .quickMove slot => menu.doQuickMove containers fuel slot
  | .swap slot target => menu.doSwap containers slot target
  | .clone slot => menu.doClone i slot
  | .throw slot wholeStack => menu.doThrow containers i fuel slot wholeStack
  | .pickupAll slot direction => menu.doPickupAll containers i slot direction
  | .quickCraft _ => return ()

def interruptQuickCraft : GuardM ι Pos κ Unit := do
  let state ← getMenu i
  if state.quickcraft.isSome then resetQuickCraft i else return ()

/-- `Menu::clicked`. The fuel bounds the loops of shift-clicks and throws. -/
def clicked (fuel : ℕ) (click : Click) : GuardM ι Pos κ Unit := do
  if click.isValidFor menu.slots.length = false then return ()
  else
    match click with
    | .quickCraft action => menu.doQuickCraft containers i action
    | click =>
      interruptQuickCraft i
      menu.clickSlot containers i fuel click

end Menu

end Clicks

end Steel
