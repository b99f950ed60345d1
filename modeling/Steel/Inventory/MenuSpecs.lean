import Steel.Inventory.SlotSpecs

/-! # What clicks do to the cursor

Clicks between a slot and the cursor, drags and throws. Each returns with empty hands:
what it took from one place it has put in another.
-/

namespace Steel

open ItemStack Menu Setup ItemKind Slot Int List

variable {ι Pos κ : Type}

section Clicked

variable [ItemKind κ]

/-- A click has ended in a valid world. Unless players clone, nothing is left in hand. -/
structure Clicked (S : Setup ι Pos κ) (mode : Mode) (hand : κ → ℤ) (_ : Unit) (hand' : κ → ℤ)
    (t : World ι Pos κ) : Prop where
  valid : S.Valid mode t
  hand_eq : ¬ mode.cloneClicks → ¬ mode.cloneDrags → hand' = hand

variable {S : Setup ι Pos κ} {mode : Mode} {w : World ι Pos κ} {hand : κ → ℤ}

theorem Clicked.trans {hand' hand'' : κ → ℤ} {t : World ι Pos κ}
    (h : Clicked S mode hand' () hand'' t) (h' : Clicked S mode hand () hand' w) :
    Clicked S mode hand () hand'' t where
  valid := h.valid
  hand_eq hclicks hdrags := (h.hand_eq hclicks hdrags).trans (h'.hand_eq hclicks hdrags)

end Clicked

section Valid

variable [ItemKind κ] {S : Setup ι Pos κ} {mode : Mode} {i : ι} {w : World ι Pos κ}

variable {slot : Slot Pos κ}

theorem Setup.Fits.carriable (hslot : slot ∈ (S.menu i).slots) {stack : ItemStack κ}
    (h : S.Fits mode slot.pos stack) : Setup.Carriable mode stack where
  le_item _ := h.le_item (limited_slot hslot)
  nonneg _ := h.nonneg

theorem Setup.Valid.count_le (hw : S.Valid mode w) (hslot : slot ∈ (S.menu i).slots) :
    (w.cells slot.pos).count ≤ 99 :=
  le_trans ((hw.fits slot.pos).le_item (limited_slot hslot)) (maxStackSize_le _)

theorem Setup.Valid.limit_nonneg (hw : S.Valid mode w) (hslot : slot ∈ (S.menu i).slots)
    (stack : ItemStack κ) : 0 ≤ slot.getMaxStackSizeForItem S.containers stack := by
  have hnonneg := (hw.fits slot.pos).nonneg
  have hcontainer := (hw.fits slot.pos).le_container (limited_slot hslot)
  have hmax := one_le_maxStackSize stack.kind
  simp only [getMaxStackSizeForItem, ItemStack.maxStackSize]
  omega

theorem Setup.Valid.setMenu [DecidableEq ι] (hw : S.Valid mode w) {state : MenuState κ}
    (hstate : S.MenuFits mode i state) : S.Valid mode (w.setMenu i state) where
  fits := hw.fits
  menus j := by
    by_cases hj : j = i
    · subst hj
      simpa using hstate
    · rw [World.menus_setMenu_of_ne w state hj]
      exact hw.menus j

end Valid

section Drag

variable [ItemKind κ]

variable {source : ItemStack κ}

theorem DragKind.placeCount_nonneg (kind : DragKind) (slotCount : ℕ) (hsource : ¬ source.IsEmpty) :
    0 ≤ kind.placeCount slotCount source := by
  cases kind with
  | left => exact Int.ediv_nonneg (Int.le_of_lt (count_pos hsource)) (by omega)
  | right => exact Int.one_nonneg
  | clone => exact Int.le_trans Int.one_nonneg (one_le_maxStackSize _)

theorem DragKind.length_mul_placeCount_le {kind : DragKind} (hkind : kind ≠ .clone) {slotCount : ℕ}
    (h : (slotCount : ℤ) ≤ source.count) :
    slotCount * kind.placeCount slotCount source ≤ source.count := by
  cases kind with
  | left =>
    rcases Nat.eq_zero_or_pos slotCount with rfl | hpos
    · simpa using h
    · exact mul_ediv_self_le (by omega)
  | right => simpa [DragKind.placeCount] using h
  | clone => exact absurd rfl hkind

variable [DecidableEq κ] {S : Setup ι Pos κ} {mode : Mode} {i : ι} {slot : Slot Pos κ}
  {w : World ι Pos κ} {hand : κ → ℤ}

/-- What a dragged slot holds already is below its limit for the carried item. -/
theorem Setup.Fits.shownCount_le (hslot : slot ∈ (S.menu i).slots) {slotItem : ItemStack κ}
    (hfits : S.Fits mode slot.pos slotItem) (hreplace : canItemQuickReplace slotItem source) :
    slotItem.shownCount ≤ min source.maxStackSize
      (slot.getMaxStackSizeForItem S.containers source) ∧
    slotItem.amount = (⟨source.kind, slotItem.shownCount⟩ : ItemStack κ).amount := by
  have hcontainer := hfits.le_container (limited_slot hslot)
  have hitem := hfits.le_item (limited_slot hslot)
  have hnonneg := hfits.nonneg
  have hmax := one_le_maxStackSize source.kind
  simp only [getMaxStackSizeForItem, ItemStack.shownCount, ItemStack.maxStackSize] at *
  by_cases hempty : slotItem.IsEmpty
  · rw [if_pos hempty, amount_zero, amount_of_isEmpty hempty]
    exact ⟨by omega, rfl⟩
  · obtain hempty' | ⟨hsame, -⟩ := hreplace
    · exact absurd hempty' hempty
    have hkind := kind_eq_of_same hsame hempty
    rw [if_neg hempty, hkind]
    exact ⟨by omega, rfl⟩

/-- What a drag leaves of the carried count. Only a clone drag creates items. -/
structure Dragged (S : Setup ι Pos κ) (mode : Mode) (i : ι) (drag : DragKind) (k : κ)
    (hand : κ → ℤ) (remaining : ℤ) (w : World ι Pos κ) (left : ℤ) (hand' : κ → ℤ)
    (t : World ι Pos κ) : Prop where
  valid : S.Valid mode t
  menu_eq : t.menus i = w.menus i
  le : left ≤ remaining
  nonneg : drag ≠ .clone → 0 ≤ left
  hand_eq : drag ≠ .clone → hand' = hand +
    ((⟨k, left⟩ : ItemStack κ).amount - (⟨k, remaining⟩ : ItemStack κ).amount)

theorem Dragged.trans {drag : DragKind} {k : κ} {remaining mid left : ℤ} {hand' hand'' : κ → ℤ}
    {t u : World ι Pos κ} (h : Dragged S mode i drag k hand remaining w mid hand' t)
    (h' : Dragged S mode i drag k hand' mid t left hand'' u) :
    Dragged S mode i drag k hand remaining w left hand'' u where
  valid := h'.valid
  menu_eq := h'.menu_eq.trans h.menu_eq
  le := le_trans h'.le h.le
  nonneg := h'.nonneg
  hand_eq hne := by
    rw [h'.hand_eq hne, h.hand_eq hne]
    abel

end Drag

variable [DecidableEq κ] [ItemKind κ] [Fintype ι] [Fintype Pos]
  {S : Setup ι Pos κ} {mode : Mode} {i : ι}
  {A : PlayerAccess S i} {w : World ι Pos κ} {hand : κ → ℤ}

open PlayerAccess

section Cursor

theorem does_getSlot {index : ℕ} {Q : Slot Pos κ → (κ → ℤ) → World ι Pos κ → Prop}
    (hindex : index < (S.menu i).slots.length)
    (hQ : ∀ slot ∈ (S.menu i).slots, (S.menu i).slots[index]? = some slot → Q slot hand w) :
    A.Does mode ((S.menu i).getSlot index) Q hand w := by
  have hslot := List.getElem?_eq_getElem hindex
  unfold getSlot
  rw [hslot]
  exact hQ _ (List.getElem_mem hindex) hslot

theorem Clicked.does_notifyOwner {hand' : κ → ℤ} {pos : Pos} (h : Clicked S mode hand () hand' w) :
    A.Does mode (notifyOwner S.containers pos) (Clicked S mode hand) hand' w := by
  apply Steel.does_notifyOwner h.valid
  intro t _ hvalid
  exact ⟨hvalid, h.hand_eq⟩

variable {stack : ItemStack κ} {Q : Unit → (κ → ℤ) → World ι Pos κ → Prop}

theorem does_drop (hw : S.Valid mode w)
    (hQ : ∀ t, t.cells = w.cells → t.menus = w.menus → S.Valid mode t →
      Q () (hand - stack.amount) t) : A.Does mode (dropItem stack) Q hand w := by
  unfold dropItem
  split_ifs with hempty
  · have h := hQ w rfl rfl hw
    rw [amount_of_isEmpty hempty, sub_zero] at h
    exact h
  · refine ⟨guar_drop stack, ?_⟩
    change Q () (hand + (w.items - (w.drop stack).items)) _
    rw [World.items_drop, ← sub_eq_add_neg]
    exact hQ _ rfl rfl (hw.drop stack)

section

variable (hw : S.Valid mode w) (hQ : ∀ t, S.Valid mode t → t.menus i = w.menus i → (A.Sequential →
    t.cells = w.cells) → Q () (hand - stack.amount) t)

include hw hQ

theorem does_dropUnlocked : A.Does mode (dropUnlocked stack) Q hand w := by
  unfold dropUnlocked
  split_ifs with hempty
  · refine ⟨hw, fun t ht hvalid => ?_⟩
    have h := hQ t hvalid (A.menu_eq ht) fun hseq => by rw [hseq w t ht]
    rw [amount_of_isEmpty hempty, sub_zero] at h
    exact h
  · refine ⟨guar_drop stack, hw.drop stack, fun t ht hvalid => ?_⟩
    change Q () (hand + (w.items - (w.drop stack).items)) t
    rw [World.items_drop, ← sub_eq_add_neg]
    have hmenu : t.menus i = (w.drop stack).menus i := A.menu_eq ht
    exact hQ t hvalid hmenu fun hseq => by rw [hseq _ t ht, World.cells_drop]

theorem does_dropTaken : A.Does mode (dropTaken stack) Q hand w := by
  unfold dropTaken
  split_ifs with hempty
  · have h := hQ w hw rfl fun _ => rfl
    rw [amount_of_isEmpty hempty, sub_zero] at h
    exact h
  · exact does_dropUnlocked hw hQ

end

variable [DecidableEq ι]

section

variable (hw : S.Valid mode w)

include hw

theorem does_modifyMenu {f : MenuState κ → MenuState κ}
    (hfits : S.MenuFits mode i (f (w.menus i))) (hQ : S.Valid mode (w.setMenu i (f (w.menus i))) →
      Q () (hand + ((w.menus i).carried.amount - (f (w.menus i)).carried.amount))
        (w.setMenu i (f (w.menus i)))) : A.Does mode (modifyMenu i f) Q hand w := by
  refine ⟨guar_setMenu _, ?_⟩
  change Q () (hand + (w.items - (w.setMenu i (f (w.menus i))).items)) _
  rw [World.items_setMenu]
  exact hQ (hw.setMenu hfits)

theorem does_setCarried (hstack : Setup.Carriable mode stack)
    (hQ : S.Valid mode (w.setMenu i { w.menus i with carried := stack }) →
      Q () (hand + ((w.menus i).carried.amount - stack.amount))
        (w.setMenu i { w.menus i with carried := stack })) :
    A.Does mode (setCarried i stack) Q hand w :=
  does_modifyMenu hw ⟨hstack, (hw.menus i).quickcraft_ne, (hw.menus i).slots_lt⟩ hQ

theorem does_resetQuickCraft :
    A.Does mode (resetQuickCraft i) (Clicked S mode hand) hand w := by
  apply does_modifyMenu hw
  · exact ⟨(hw.menus i).carriable, fun _ => by simp, by simp⟩
  · intro hvalid
    exact ⟨hvalid, fun _ _ => by simp⟩

theorem does_interruptQuickCraft :
    A.Does mode (interruptQuickCraft i) (Clicked S mode hand) hand w := by
  unfold interruptQuickCraft
  simp only [getMenu, spec_bind, spec_read, spec_pure]
  split_ifs
  · exact does_resetQuickCraft hw
  · exact ⟨hw, fun _ _ => rfl⟩

theorem does_carry {hand' : κ → ℤ} (hstack : Setup.Carriable mode stack)
    (hcursor : (w.menus i).carried.amount = 0) (hhand : hand' = hand + stack.amount) :
    A.Does mode (setCarried i stack) (Clicked S mode hand) hand' w := by
  apply does_setCarried hw hstack
  intro hvalid
  refine ⟨hvalid, fun _ _ => ?_⟩
  rw [hcursor, hhand]
  abel

theorem does_dropCarried {button : MouseButton} :
    A.Does mode (dropCarried i button) (Clicked S mode hand) hand w := by
  have hcarriable := (hw.menus i).carriable
  unfold dropCarried
  simp only [getMenu, spec_bind, spec_read, spec_pure]
  split_ifs with hempty
  · exact ⟨hw, fun _ _ => rfl⟩
  have hcount := count_pos hempty
  cases button with
  | left =>
    simp only [spec_bind]
    apply does_setCarried hw .empty
    intro hvalid
    apply does_drop hvalid
    intro t _ _ ht
    exact ⟨ht, fun _ _ => by simp⟩
  | right =>
    have hone : min 1 (w.menus i).carried.count = 1 := by omega
    have hamounts := (w.menus i).carried.amount_split (n := 1) (by omega) (by omega)
    simp only [ItemStack.split, hone, spec_bind]
    apply does_setCarried hw
    · exact hcarriable.of_le rfl (by dsimp only [ItemStack.shrink]; omega)
        (by dsimp only [ItemStack.shrink]; omega)
    intro hvalid
    apply does_drop hvalid
    intro t _ _ ht
    refine ⟨ht, fun _ _ => ?_⟩
    rw [← hamounts]
    abel

end

theorem does_doClone {slotIndex : ℕ} (hindex : slotIndex < (S.menu i).slots.length)
    (hclone : (S.menu i).player.hasInfiniteMaterials = true → mode.cloneClicks)
    (hw : S.Valid mode w) :
    A.Does mode ((S.menu i).doClone i slotIndex) (Clicked S mode hand) hand w := by
  unfold doClone
  simp only [getMenu, spec_bind, spec_read, spec_pure]
  split_ifs with hdenied
  · exact ⟨hw, fun _ _ => rfl⟩
  simp only [getItem, spec_bind, spec_read, spec_pure]
  apply does_getSlot hindex
  intro slot hslot _
  split_ifs with hempty
  · exact ⟨hw, fun _ _ => rfl⟩
  apply does_setCarried hw
  · rw [ItemStack.copyWithCount, if_neg hempty]
    have hone := one_le_maxStackSize (w.cells slot.pos).kind
    exact ⟨fun _ => Int.le_refl _, fun _ => Int.le_trans Int.one_nonneg hone⟩
  intro hvalid
  refine ⟨hvalid, fun hclicks => absurd (hclone ?_) hclicks⟩
  rw [not_or] at hdenied
  simpa using hdenied.1

end Cursor

variable [DecidableEq Pos] {slot : Slot Pos κ}

theorem does_distribute {kind : DragKind} {source : ItemStack κ} (hsource : ¬ source.IsEmpty)
    {slotCount : ℕ} (slots : List ℕ) (hslots : ∀ k ∈ slots, k < (S.menu i).slots.length) :
    ∀ (remaining : ℤ) (hand : κ → ℤ) (w : World ι Pos κ), S.Valid mode w →
    (kind ≠ .clone → 0 ≤ remaining ∧ ((slotCount : ℤ) ≤ source.count →
      slots.length * kind.placeCount slotCount source ≤ remaining)) →
    A.Does mode ((S.menu i).distribute S.containers kind source slotCount slots remaining)
      (Dragged S mode i kind source.kind hand remaining w) hand w := by
  induction slots with
  | nil =>
    intro remaining hand w hw hremaining
    exact ⟨hw, rfl, le_refl _, fun hne => (hremaining hne).1, fun _ => by simp⟩
  | cons slotIndex slots ih =>
    intro remaining hand w hw hremaining
    have hplaceCount := kind.placeCount_nonneg slotCount hsource
    have ih := ih fun k hk => hslots k (mem_cons_of_mem _ hk)
    unfold distribute
    simp only [getItem, spec_bind, spec_read, spec_pure]
    apply does_getSlot (hslots slotIndex mem_cons_self)
    intro slot hslot _
    split_ifs with hplace
    · obtain ⟨hreplace, -, hshare, -⟩ := hplace
      have hfits := hw.fits slot.pos
      obtain ⟨hle, hamount⟩ := hfits.shownCount_le hslot hreplace
      have hcurrent : 0 ≤ (w.cells slot.pos).shownCount := by
        have := hfits.nonneg
        unfold ItemStack.shownCount
        split_ifs <;> omega
      simp only [setByPlayer, spec_bind]
      generalize hcount : min (kind.placeCount slotCount source + (w.cells slot.pos).shownCount)
        (min source.maxStackSize (slot.getMaxStackSizeForItem S.containers source)) = newCount
      apply does_setItem hslot hw
      · apply fits_of_le_limit
        · dsimp only [ItemStack.setCount]
          omega
        · change newCount ≤ slot.getMaxStackSizeForItem S.containers source
          omega
      intro t ht hvalid
      have hroom : kind ≠ .clone → slots.length * kind.placeCount slotCount source ≤
          remaining - (newCount - (w.cells slot.pos).shownCount) := by
        intro hne
        have hroom := (hremaining hne).2 (hshare.resolve_left hne)
        rw [length_cons, Nat.cast_add, Nat.cast_one, add_mul] at hroom
        omega
      have hnonneg : kind ≠ .clone → 0 ≤ remaining - (newCount - (w.cells slot.pos).shownCount) :=
        fun hne => Int.le_trans (Int.mul_nonneg (by omega) hplaceCount) (hroom hne)
      refine (ih _ _ t hvalid fun hne => ⟨hnonneg hne, fun _ => hroom hne⟩).mono ?_
      intro left hand' u hleft
      apply Dragged.trans _ hleft
      refine ⟨hvalid, ht.menu_eq, by omega, hnonneg, ?_⟩
      intro hne
      have hamounts := amount_add_amount (k := source.kind) (a := newCount)
        (c := (w.cells slot.pos).shownCount) (by omega) (hnonneg hne) hcurrent
        (hremaining hne).1 (by omega)
      rw [hamount, eq_sub_of_add_eq' hamounts]
      change _ + (_ - (⟨source.kind, newCount⟩ : ItemStack κ).amount) = _
      abel
    · apply ih remaining hand w hw
      intro hne
      obtain ⟨hnonneg, hroom⟩ := hremaining hne
      refine ⟨hnonneg, fun hle => ?_⟩
      have := hroom hle
      rw [length_cons, Nat.cast_add, Nat.cast_one, add_mul] at this
      omega

section Throw

theorem does_throwLoop (hslot : slot ∈ (S.menu i).slots) {dropped : ItemStack κ} (fuel : ℕ) :
    ∀ (hand : κ → ℤ) (w : World ι Pos κ), S.Valid mode w →
    (A.Sequential → (w.cells slot.pos).count < fuel) →
    A.Does mode ((S.menu i).throwLoop S.containers slot dropped fuel)
      (Clicked S mode hand) hand w := by
  induction fuel with
  | zero =>
    intro hand w hw hfuel
    refine ⟨fun hseq => ?_, hw⟩
    have hlt := hfuel hseq
    have hnonneg := (hw.fits slot.pos).nonneg
    rw [Nat.cast_zero] at hlt
    omega
  | succ fuel ih =>
    intro hand w hw hfuel
    unfold throwLoop
    simp only [spec_bind, spec_read]
    split_ifs
    · exact ⟨hw, fun _ _ => rfl⟩
    simp only [spec_bind]
    apply does_safeTake hslot hw
    · rw [if_pos isEmpty_empty]
      exact ⟨hw, fun _ _ => rfl⟩
    intro taken t _ hne hvalid _ hcount
    have hpos := count_pos hne
    rw [if_neg hne]
    simp only [spec_bind]
    apply does_dropUnlocked hvalid
    intro u hvalid' _ hcells
    rw [add_sub_cancel_right]
    apply ih hand u hvalid'
    intro hseq
    have hlt := hfuel hseq
    rw [hcells hseq, hcount hseq]
    push_cast at hlt
    omega

theorem does_doThrow {fuel slotIndex : ℕ} {wholeStack : Bool}
    (hindex : slotIndex < (S.menu i).slots.length) (hfuel : A.Sequential → 100 ≤ fuel)
    (hw : S.Valid mode w) :
    A.Does mode ((S.menu i).doThrow S.containers i fuel slotIndex wholeStack)
      (Clicked S mode hand) hand w := by
  unfold doThrow
  simp only [getMenu, spec_bind, spec_read, spec_pure]
  by_cases hcarried : ¬ (w.menus i).carried.IsEmpty
  · rw [if_pos hcarried]
    exact ⟨hw, fun _ _ => rfl⟩
  rw [if_neg hcarried]
  simp only [spec_bind, spec_read]
  apply does_getSlot hindex
  intro slot hslot _
  by_cases hdenied :
      slot.mayPickup w.cells = false ∨ (S.menu i).player.canDropItems = false
  · rw [if_pos hdenied]
    exact ⟨hw, fun _ _ => rfl⟩
  rw [if_neg hdenied]
  have hrest : ∀ (dropped : ItemStack κ) (t : World ι Pos κ), S.Valid mode t →
      A.Does mode (if wholeStack = true then
        throwLoop S.containers (S.menu i) slot dropped fuel else pure ())
        (Clicked S mode hand) hand t := by
    intro dropped t ht
    split_ifs
    · apply does_throwLoop hslot fuel hand t ht
      intro hseq
      have hle := ht.count_le hslot
      have := hfuel hseq
      omega
    · exact ⟨ht, fun _ _ => rfl⟩
  simp only [spec_bind]
  apply does_safeTake hslot hw
  · apply does_dropTaken hw
    intro t ht _ _
    rw [amount_empty, sub_zero]
    exact hrest _ t ht
  · intro taken t _ _ hvalid _ _
    apply does_dropTaken hvalid
    intro u hu _ _
    rw [add_sub_cancel_right]
    exact hrest _ u hu

end Throw

variable [DecidableEq ι]

section Pickup

/-- The stack in hand, which was carried, ends up in the slot or on the cursor. -/
theorem does_pickupItem {button : MouseButton} {carried : ItemStack κ} {hand' : κ → ℤ}
    (hslot : slot ∈ (S.menu i).slots) (hw : S.Valid mode w)
    (hcarried : Setup.Carriable mode carried) (hcursor : (w.menus i).carried.amount = 0)
    (hhand : hand' = hand + carried.amount) :
    A.Does mode (pickupItem S.containers i slot button w.cells (w.cells slot.pos) carried)
      (Clicked S mode hand) hand' w := by
  have hfits := hw.fits slot.pos
  have hback : A.Does mode (setCarried i carried) (Clicked S mode hand) hand' w :=
    does_carry hw hcarried hcursor hhand
  have hinsert : ∀ requested, ¬ carried.IsEmpty →
      A.Does mode (slot.safeInsert S.containers carried requested >>= setCarried i)
        (Clicked S mode hand) hand' w := by
    intro requested hne
    simp only [spec_bind]
    apply does_safeInsert hslot hw hne
    intro left t hkind hnonneg hle hvalid hmenu
    apply does_carry hvalid (hcarried.of_le hkind hnonneg hle)
    · rw [hmenu, hcursor]
    · rw [hhand]
      abel
  unfold pickupItem
  split_ifs with hempty hplace hnone hsame hplace hspace hswap
  · exact hinsert _ hplace.1
  · exact hback
  · rw [amount_of_isEmpty hnone, add_zero] at hhand
    simp only [spec_bind]
    apply does_tryRemove hslot hw
    · exact ⟨hw, fun _ _ => hhand⟩
    intro taken t heq hne hvalid hmenu _
    simp only [onTake, setChanged, spec_bind]
    apply does_notifyOwner hvalid
    intro u hu hvalid'
    apply does_carry hvalid'
    · have hpos := count_pos hne
      exact (hfits.carriable hslot).of_le (by rw [heq]) (by omega) (by rw [heq]; dsimp only; omega)
    · rw [hu.menu_eq, hmenu, hcursor]
    · rw [hhand]
  · exact hinsert _ hnone
  · have hkind := kind_eq_of_same hsame hnone
    have hcount := count_pos hnone
    simp only [spec_bind]
    apply does_tryRemove hslot hw
    · exact hback
    intro taken t heq hne hvalid hmenu _
    have hpos := count_pos hne
    have hgrow := carried.amount_grow (le_of_lt hcount) (le_of_lt hpos)
    have htaken : (⟨carried.kind, taken.count⟩ : ItemStack κ) = taken := by
      rw [heq, hkind]
    rw [htaken] at hgrow
    simp only [onTake, setChanged, spec_bind]
    apply does_notifyOwner hvalid
    intro u hu hvalid'
    apply does_carry hvalid'
    · have hle : taken.count ≤ carried.maxStackSize - carried.count := by
        rw [heq]
        dsimp only
        omega
      refine ⟨fun _ => ?_, fun _ => ?_⟩
      · change carried.count + taken.count ≤ carried.maxStackSize
        omega
      · dsimp only [ItemStack.grow]
        omega
    · rw [hu.menu_eq, hmenu, hcursor]
    · rw [hhand, hgrow, add_assoc]
  · exact hback
  · have hcount := count_pos hnone
    simp only [setByPlayer, spec_bind]
    apply does_setItem hslot hw (fits_of_le_limit (le_of_lt hcount) hswap.2.2)
    intro t ht hvalid
    apply does_carry hvalid (hfits.carriable hslot)
    · rw [ht.menu_eq, World.menus_setCell, hcursor]
    · rw [hhand]
      abel
  · exact hback

theorem does_doPickup {slotIndex : ℕ} {button : MouseButton}
    (hindex : slotIndex < (S.menu i).slots.length) (hw : S.Valid mode w) :
    A.Does mode ((S.menu i).doPickup S.containers i slotIndex button)
      (Clicked S mode hand) hand w := by
  unfold doPickup
  simp only [spec_bind, spec_read]
  apply does_getSlot hindex
  intro slot hslot _
  apply does_setCarried hw .empty
  intro hvalid
  apply Spec.mono (Q := Clicked S mode hand)
  · apply does_pickupItem hslot hvalid (hw.menus i).carriable
    · simp
    · simp
  · intro _ hand' t hclicked
    exact hclicked.does_notifyOwner

end Pickup

section Drag

theorem does_finishQuickCraft {kind : DragKind} (hkind : ¬ mode.cloneDrags → kind ≠ .clone)
    (hw : S.Valid mode w) :
    A.Does mode ((S.menu i).finishQuickCraft S.containers i kind) (Clicked S mode hand) hand w := by
  have hslots := (hw.menus i).slots_lt
  unfold finishQuickCraft
  simp only [getMenu, spec_bind, spec_read, spec_pure]
  split
  · exact does_resetQuickCraft hw
  · rename_i slot hone
    simp only [spec_bind]
    refine (does_resetQuickCraft hw).mono ?_
    intro _ hand' t hreset
    have hslot : slot < (S.menu i).slots.length := hslots slot (by simp [hone])
    cases kind with
    | left => exact (does_doPickup hslot hreset.valid).mono fun _ _ _ h => h.trans hreset
    | right => exact (does_doPickup hslot hreset.valid).mono fun _ _ _ h => h.trans hreset
    | clone => exact hreset
  · split_ifs with hempty
    · exact does_resetQuickCraft hw
    have hcarriable := (hw.menus i).carriable
    have hcount := count_pos hempty
    simp only [spec_bind]
    refine (does_distribute hempty _ hslots _ hand w hw ?_).mono ?_
    · intro hne
      exact ⟨le_of_lt hcount, fun hle => DragKind.length_mul_placeCount_le hne hle⟩
    intro left hand' t hdragged
    have hcarriable' : Setup.Carriable mode ((w.menus i).carried.setCount left) := by
      refine ⟨fun hb => ?_, fun hclone => hdragged.nonneg (hkind hclone)⟩
      exact le_trans hdragged.le (hcarriable.le_item hb)
    apply does_setCarried hdragged.valid hcarriable'
    intro hvalid
    refine (does_resetQuickCraft hvalid).mono ?_
    intro _ hand'' u hreset
    refine ⟨hreset.valid, fun hclicks hdrags => ?_⟩
    rw [hreset.hand_eq hclicks hdrags, hdragged.hand_eq (hkind hdrags), hdragged.menu_eq]
    change _ + (_ - (w.menus i).carried.amount) + (_ - _) = hand
    change hand + (((w.menus i).carried.setCount left).amount - _) + _ = hand
    abel

theorem does_doQuickCraft {action : QuickCraft}
    (haction : ∀ k, action = .addSlot k → k < (S.menu i).slots.length)
    (hclone : action = .start .clone → (S.menu i).player.hasInfiniteMaterials = true →
      mode.cloneDrags) (hw : S.Valid mode w) :
    A.Does mode ((S.menu i).doQuickCraft S.containers i action) (Clicked S mode hand) hand w := by
  have hmenu := hw.menus i
  have hreset : A.Does mode (resetQuickCraft i) (Clicked S mode hand) hand w :=
    does_resetQuickCraft hw
  unfold doQuickCraft
  simp only [spec_bind, spec_read]
  split
  · rename_i kind hidle
    split_ifs with hempty hdenied
    · exact hreset
    · exact hreset
    apply does_modifyMenu hw
    · refine ⟨hmenu.carriable, fun hdrags => ?_, by simp⟩
      rintro ⟨⟩
      apply hdrags
      apply hclone rfl
      simpa using hdenied
    · intro hvalid
      exact ⟨hvalid, fun _ _ => by simp⟩
  · rename_i slotIndex kind hdrag
    split_ifs with hempty
    · exact hreset
    have hindex := haction slotIndex rfl
    simp only [spec_bind]
    apply does_getSlot hindex
    intro slot hslot _
    split_ifs with hadd
    · apply does_modifyMenu hw
      · refine ⟨hmenu.carriable, hmenu.quickcraft_ne, ?_⟩
        intro k hk
        rcases mem_append.mp hk with hk | hk
        · exact hmenu.slots_lt k hk
        · rw [mem_singleton.mp hk]
          exact hindex
      · intro hvalid
        exact ⟨hvalid, fun _ _ => by simp⟩
    · exact ⟨hw, fun _ _ => rfl⟩
  · rename_i kind hdrag
    split_ifs with hempty
    · exact hreset
    apply does_finishQuickCraft _ hw
    rintro hdrags rfl
    exact hmenu.quickcraft_ne hdrags hdrag
  · exact hreset

end Drag

end Steel
