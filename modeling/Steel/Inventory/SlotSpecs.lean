import Steel.Inventory.Conservation

/-! # What the operations of a slot do

Each operation keeps a valid world valid, and what it takes from the world or gives to it is in the
hands of its caller.
-/

namespace Steel

open ItemStack Setup Slot Player World ItemStack Int

variable {ι Pos κ : Type}

section Reach

variable {S : Setup ι Pos κ} {i : ι} {slot : Slot Pos κ}

theorem Setup.reaches_slot (hslot : slot ∈ (S.menu i).slots) : S.Reaches i slot.pos :=
  .inl ⟨slot, hslot, rfl⟩

theorem Setup.reaches_inventory (k : ℕ) : S.Reaches i ((S.menu i).player.inventory k) :=
  .inr ⟨k, rfl⟩

theorem Setup.limited_slot {mode : Mode} (hslot : slot ∈ (S.menu i).slots) :
    S.Limited mode slot.pos :=
  .inl ⟨i, slot, hslot, rfl⟩

end Reach

section Valid

variable [ItemKind κ] {S : Setup ι Pos κ} {mode : Mode} {w : World ι Pos κ}

theorem Setup.Valid.setCell [DecidableEq Pos] (hw : S.Valid mode w) {pos : Pos}
    {stack : ItemStack κ} (hfits : S.Fits mode pos stack) : S.Valid mode (w.setCell pos stack) where
  fits p := by
    by_cases hp : p = pos
    · subst hp
      simpa using hfits
    · rw [cells_setCell_of_ne w stack hp]
      exact hw.fits p
  menus := hw.menus

theorem Setup.Valid.drop (hw : S.Valid mode w) (stack : ItemStack κ) :
    S.Valid mode (w.drop stack) where
  fits := hw.fits
  menus := hw.menus

end Valid

namespace PlayerAccess

section Access

variable {S : Setup ι Pos κ} {i : ι} {A : PlayerAccess S i} {pos : Pos} {w t u : World ι Pos κ}

theorem After.trans (h : A.After pos w t) (h' : A.After pos t u) : A.After pos w u where
  rely := A.rely_trans h.rely h'.rely
  eq_of_unowned hown := by rw [h'.eq_of_unowned hown, h.eq_of_unowned hown]

theorem After.menu_eq (h : A.After pos w t) : t.menus i = w.menus i := A.menu_eq h.rely

theorem After.eq_of_sequential (h : A.After pos w t) (hseq : A.Sequential) : t = w :=
  hseq w t h.rely

theorem guar_setCell [DecidableEq Pos] (hpos : S.Reaches i pos) (stack : ItemStack κ) :
    A.guar w (w.setCell pos stack) := by
  apply A.guar_of
  · intro p hp
    apply cells_setCell_of_ne
    rintro rfl
    exact hp hpos
  · exact fun _ _ => rfl

theorem guar_setMenu [DecidableEq ι] (state : MenuState κ) : A.guar w (w.setMenu i state) := by
  apply A.guar_of
  · exact fun _ _ => rfl
  · exact fun j hj => menus_setMenu_of_ne w state hj

theorem guar_drop (stack : ItemStack κ) : A.guar w (w.drop stack) :=
  A.guar_of (fun _ _ => rfl) fun _ _ => rfl

end Access

end PlayerAccess

section LeftOver

variable [DecidableEq κ] [ItemKind κ] {S : Setup ι Pos κ} {mode : Mode} {i : ι}
  {w : World ι Pos κ} {hand : κ → ℤ}

/-- What is left in hand of a stack, in a world that is valid again. -/
structure LeftOver (S : Setup ι Pos κ) (mode : Mode) (i : ι) (hand : κ → ℤ) (stack : ItemStack κ)
    (w : World ι Pos κ) (left : ItemStack κ) (hand' : κ → ℤ) (t : World ι Pos κ) : Prop where
  kind_eq : left.kind = stack.kind
  nonneg : 0 ≤ left.count
  le : left.count ≤ stack.count
  valid : S.Valid mode t
  menu_eq : t.menus i = w.menus i
  hand_eq : hand' = hand + (left.amount - stack.amount)

theorem LeftOver.refl (hw : S.Valid mode w) {stack : ItemStack κ} (hstack : 0 ≤ stack.count) :
    LeftOver S mode i hand stack w stack hand w :=
  ⟨rfl, hstack, le_refl _, hw, rfl, by rw [sub_self, add_zero]⟩

theorem LeftOver.trans {stack mid left : ItemStack κ} {hand' hand'' : κ → ℤ}
    {t u : World ι Pos κ} (h : LeftOver S mode i hand stack w mid hand' t)
    (h' : LeftOver S mode i hand' mid t left hand'' u) :
    LeftOver S mode i hand stack w left hand'' u where
  kind_eq := h'.kind_eq.trans h.kind_eq
  nonneg := h'.nonneg
  le := le_trans h'.le h.le
  valid := h'.valid
  menu_eq := h'.menu_eq.trans h.menu_eq
  hand_eq := by
    rw [h'.hand_eq, h.hand_eq]
    abel

end LeftOver

variable [DecidableEq κ] [ItemKind κ] [Fintype ι] [Fintype Pos]
  {S : Setup ι Pos κ} {mode : Mode} {i : ι}
  {A : PlayerAccess S i} {w : World ι Pos κ} {hand : κ → ℤ}

abbrev PlayerAccess.Does {α : Type} (A : PlayerAccess S i) (mode : Mode) (p : GuardM ι Pos κ α)
    (Q : α → (κ → ℤ) → World ι Pos κ → Prop) (hand : κ → ℤ) (w : World ι Pos κ) : Prop :=
  Spec (S.account mode) A.toAccess p Q hand w

open PlayerAccess

section Guard

variable {Q : Unit → (κ → ℤ) → World ι Pos κ → Prop}

theorem does_notifyOwner {pos : Pos}
    (hw : S.Valid mode w)
    (hQ : ∀ t, A.After pos w t → S.Valid mode t → Q () hand t) :
    A.Does mode (notifyOwner S.containers pos) Q hand w := by
  unfold notifyOwner
  by_cases hown : S.containers.owned pos = true
  · rw [if_pos hown]
    refine ⟨hw, fun t ht hvalid => hQ t ⟨ht, ?_⟩ hvalid⟩
    intro hown'
    rw [hown] at hown'
    cases hown'
  · rw [if_neg hown]
    exact hQ w ⟨A.rely_refl w, fun _ => rfl⟩ hw

variable [DecidableEq Pos]

theorem does_setItemNoUpdate {pos : Pos} {stack : ItemStack κ}
    (hpos : S.Reaches i pos)
    (hQ : Q () (hand + ((w.cells pos).amount - stack.amount)) (w.setCell pos stack)) :
    A.Does mode (setItemNoUpdate pos stack) Q hand w := by
  refine ⟨guar_setCell hpos stack, ?_⟩
  change Q () (hand + (w.items - (w.setCell pos stack).items)) _
  rw [items_setCell]
  exact hQ

variable {slot : Slot Pos κ} (hslot : slot ∈ (S.menu i).slots)

include hslot

theorem does_setItem {stack : ItemStack κ}
    (hw : S.Valid mode w) (hfits : S.Fits mode slot.pos stack)
    (hQ : ∀ t, A.After slot.pos (w.setCell slot.pos stack) t → S.Valid mode t →
      Q () (hand + ((w.cells slot.pos).amount - stack.amount)) t) :
    A.Does mode (slot.setItem S.containers stack) Q hand w := by
  unfold setItem guardSetItem
  simp only [spec_bind]
  apply does_setItemNoUpdate (reaches_slot hslot)
  apply does_notifyOwner (hw.setCell hfits)
  intro t ht hvalid
  apply does_notifyOwner hvalid
  intro u hu hvalid'
  exact hQ u (ht.trans hu) hvalid'

variable {amount : ℤ} {Q : ItemStack κ → (κ → ℤ) → World ι Pos κ → Prop}

section

variable (hw : S.Valid mode w)

include hw

theorem does_guardRemoveItem (hitem : ¬ (w.cells slot.pos).IsEmpty) (hamount : 0 < amount)
    (hQ : ∀ taken t, taken = ⟨(w.cells slot.pos).kind, min amount (w.cells slot.pos).count⟩ →
      ¬ taken.IsEmpty →
      A.After slot.pos (w.setCell slot.pos ((w.cells slot.pos).shrink taken.count)) t →
      S.Valid mode t → Q taken (hand + taken.amount) t) :
    A.Does mode (guardRemoveItem S.containers slot.pos amount) Q hand w := by
  have hcount := count_pos hitem
  have hfits := hw.fits slot.pos
  have htaken : ¬ (⟨(w.cells slot.pos).kind, min amount (w.cells slot.pos).count⟩ :
      ItemStack κ).IsEmpty := not_isEmpty_mk hitem (by omega)
  have hleft : S.Fits mode slot.pos
      ((w.cells slot.pos).shrink (min amount (w.cells slot.pos).count)) :=
    hfits.of_le (by omega) (by omega)
  have hamounts := (w.cells slot.pos).amount_split (n := min amount (w.cells slot.pos).count)
    (by omega) (by omega)
  unfold guardRemoveItem
  simp only [spec_bind, spec_read]
  rw [if_neg (by simp only [hitem, false_or]; omega)]
  simp only [split, htaken, if_false, spec_bind]
  apply does_setItemNoUpdate (reaches_slot hslot)
  apply does_notifyOwner (hw.setCell hleft)
  intro t ht hvalid
  have heq : hand + ((w.cells slot.pos).amount - ((w.cells slot.pos).shrink
      (min amount (w.cells slot.pos).count)).amount) =
      hand + (⟨(w.cells slot.pos).kind, min amount (w.cells slot.pos).count⟩ :
        ItemStack κ).amount := by
    rw [← hamounts]
    abel
  rw [heq]
  exact hQ _ t rfl htaken ht hvalid

theorem does_remove (hnone : Q .empty hand w)
    (hQ : ∀ taken t, taken = ⟨(w.cells slot.pos).kind, min amount (w.cells slot.pos).count⟩ →
      ¬ taken.IsEmpty →
      A.After slot.pos (w.setCell slot.pos ((w.cells slot.pos).shrink taken.count)) t →
      S.Valid mode t → Q taken (hand + taken.amount) t) :
    A.Does mode (slot.remove S.containers amount) Q hand w := by
  unfold remove getItem
  simp only [spec_bind, spec_read, spec_pure]
  split_ifs with hremove hrestricted
  · exact hnone
  · rw [not_or, not_le] at hremove
    have hcount := count_pos hremove.2
    have hamounts := (w.cells slot.pos).amount_split (n := min amount (w.cells slot.pos).count)
      (by omega) (by omega)
    simp only [split, spec_bind, spec_pure]
    apply does_setItemNoUpdate (reaches_slot hslot)
    have heq : hand + ((w.cells slot.pos).amount - ((w.cells slot.pos).shrink
        (min amount (w.cells slot.pos).count)).amount) =
        hand + (⟨(w.cells slot.pos).kind, min amount (w.cells slot.pos).count⟩ :
          ItemStack κ).amount := by
      rw [← hamounts]
      abel
    rw [heq]
    apply hQ _ _ rfl
    · exact not_isEmpty_mk hremove.2 (by omega)
    · exact ⟨A.rely_refl _, fun _ => rfl⟩
    · exact hw.setCell ((hw.fits slot.pos).of_le (by omega) (by omega))
  · rw [not_or, not_le] at hremove
    exact does_guardRemoveItem hslot hw hremove.2 hremove.1 hQ

/-- `try_remove` leaves the world alone, or takes a part of what is in the slot. -/
theorem does_tryRemove {maxAmount : ℤ} {Q : Option (ItemStack κ) → (κ → ℤ) → World ι Pos κ → Prop}
    (hnone : Q none hand w) (hsome : ∀ taken t,
      taken = ⟨(w.cells slot.pos).kind, min (min amount maxAmount) (w.cells slot.pos).count⟩ →
      ¬ taken.IsEmpty → S.Valid mode t → t.menus i = w.menus i →
      (A.Sequential → (t.cells slot.pos).count = (w.cells slot.pos).count - taken.count) →
      Q (some taken) (hand + taken.amount) t) :
    A.Does mode (slot.tryRemove S.containers amount maxAmount) Q hand w := by
  unfold tryRemove
  simp only [spec_bind, spec_read]
  split_ifs
  · exact hnone
  · exact hnone
  simp only [getItem, spec_bind]
  apply does_remove hslot hw
  · simpa using hnone
  intro taken t heq hne ht hvalid
  have hmenu : t.menus i = w.menus i := ht.menu_eq
  have hcount : A.Sequential →
      (t.cells slot.pos).count = (w.cells slot.pos).count - taken.count := by
    intro hseq
    rw [ht.eq_of_sequential hseq, cells_setCell_self]
    rfl
  rw [if_neg hne]
  simp only [spec_bind, spec_read, spec_pure]
  split_ifs with hempty
  · simp only [spec_bind, spec_pure]
    apply does_setItem hslot hvalid (hvalid.fits slot.pos).empty
    intro u hu hvalid'
    rw [amount_of_isEmpty hempty, amount_empty, sub_self, add_zero]
    refine hsome taken u heq hne hvalid' (hu.menu_eq.trans hmenu) ?_
    intro hseq
    have hzero : (t.cells slot.pos).count = 0 := by
      rcases hempty with hair | hle
      · have hkind : (t.cells slot.pos).kind = taken.kind := by
          rw [ht.eq_of_sequential hseq, cells_setCell_self, heq]
          rfl
        exact absurd (hkind ▸ hair) (item_kind_ne_zero hne)
      · exact le_antisymm hle (hvalid.fits slot.pos).nonneg
    rw [hu.eq_of_sequential hseq, cells_setCell_self, ← hcount hseq, hzero]
    rfl
  · exact hsome taken t heq hne hvalid hmenu hcount

theorem does_safeTake {maxAmount : ℤ} (hnone : Q .empty hand w) (hsome : ∀ taken t,
      taken = ⟨(w.cells slot.pos).kind, min (min amount maxAmount) (w.cells slot.pos).count⟩ →
      ¬ taken.IsEmpty → S.Valid mode t → t.menus i = w.menus i →
      (A.Sequential → (t.cells slot.pos).count = (w.cells slot.pos).count - taken.count) →
      Q taken (hand + taken.amount) t) :
    A.Does mode (slot.safeTake S.containers amount maxAmount) Q hand w := by
  unfold safeTake
  simp only [spec_bind]
  apply does_tryRemove hslot hw hnone
  intro taken t heq hne hvalid hmenu hcount
  simp only [onTake, setChanged, spec_bind]
  apply does_notifyOwner hvalid
  intro u hu hvalid'
  refine hsome taken u heq hne hvalid' (hu.menu_eq.trans hmenu) ?_
  intro hseq
  rw [hu.eq_of_sequential hseq]
  exact hcount hseq

theorem does_safeInsert {input : ItemStack κ} (hinput : ¬ input.IsEmpty)
    (hQ : ∀ left t, left.kind = input.kind → 0 ≤ left.count → left.count ≤ input.count →
      S.Valid mode t → t.menus i = w.menus i → Q left (hand + (left.amount - input.amount)) t) :
    A.Does mode (slot.safeInsert S.containers input amount) Q hand w := by
  have hpos := count_pos hinput
  have hunchanged : Q input hand w := by
    have h := hQ input w rfl (le_of_lt hpos) (le_refl _) hw rfl
    rwa [sub_self, add_zero] at h
  unfold safeInsert
  split_ifs
  · exact hunchanged
  simp only [getItem, spec_bind, spec_read, spec_pure]
  have hfits := hw.fits slot.pos
  have hnonneg := hfits.nonneg
  generalize htransferable : min (min amount input.count)
    (slot.getMaxStackSizeForItem S.containers input - (w.cells slot.pos).count) = transferable
  have hcounts : ∀ t, S.Valid mode t → t.menus i = w.menus i → 0 < transferable →
      Q (input.shrink transferable)
        (hand + ((input.shrink transferable).amount - input.amount)) t := by
    intro t hvalid hmenu hlt
    exact hQ _ t rfl (by dsimp only [shrink]; omega)
      (by dsimp only [shrink]; omega) hvalid hmenu
  split_ifs with hle hempty hsame
  · exact hunchanged
  · have hmin : min transferable input.count = transferable := by omega
    have hamounts := input.amount_split (n := transferable) (by omega) (by omega)
    simp only [split, hmin, setByPlayer, spec_bind]
    apply does_setItem hslot hw
    · apply fits_of_le_limit (le_of_lt (not_le.mp hle))
      change transferable ≤ slot.getMaxStackSizeForItem S.containers input
      omega
    intro t ht hvalid
    have heq : hand + ((w.cells slot.pos).amount -
        (⟨input.kind, transferable⟩ : ItemStack κ).amount) =
        hand + ((input.shrink transferable).amount - input.amount) := by
      rw [amount_of_isEmpty hempty, ← hamounts]
      abel
    rw [heq]
    exact hcounts t hvalid ht.menu_eq (not_le.mp hle)
  · have hkind := kind_eq_of_same hsame hinput
    have hamounts := amount_transfer hkind hnonneg (n := transferable) (by omega) (by omega)
    simp only [setByPlayer, spec_bind]
    apply does_setItem hslot hw
    · apply fits_of_le_limit
      · dsimp only [grow]
        omega
      · have hlimit : slot.getMaxStackSizeForItem S.containers
            ((w.cells slot.pos).grow transferable) =
            slot.getMaxStackSizeForItem S.containers input := by
          simp only [getMaxStackSizeForItem, maxStackSize, grow, hkind]
        rw [hlimit]
        dsimp only [grow]
        omega
    intro t ht hvalid
    have heq : hand + ((w.cells slot.pos).amount - ((w.cells slot.pos).grow transferable).amount) =
        hand + ((input.shrink transferable).amount - input.amount) := by
      rw [eq_sub_of_add_eq hamounts]
      abel
    rw [heq]
    exact hcounts t hvalid ht.menu_eq (not_le.mp hle)
  · exact hunchanged

end

end Guard

section Inventory

variable [DecidableEq Pos]

theorem does_topUp {maxSize : ℤ} (slots : List ℕ) :
    ∀ (stack : ItemStack κ) (hand : κ → ℤ) (w : World ι Pos κ), S.Valid mode w →
    0 ≤ stack.count → maxSize ≤ stack.maxStackSize →
    A.Does mode ((S.menu i).player.topUp maxSize slots stack)
      (LeftOver S mode i hand stack w) hand w := by
  induction slots with
  | nil =>
    intro stack hand w hw hstack _
    exact .refl hw hstack
  | cons slot slots ih =>
    intro stack hand w hw hstack hmax
    unfold topUp
    split_ifs with hempty
    · exact .refl hw hstack
    simp only [spec_bind, spec_read]
    set existing := w.cells ((S.menu i).player.inventory slot) with hexisting
    split_ifs with hsame
    · obtain ⟨hne, hsame, hspace⟩ := hsame
      have hkind := kind_eq_of_same hsame hempty
      have hpos := count_pos hempty
      have hpos' := count_pos hne
      have hshown : existing.shownCount = existing.count := if_neg hne
      have hshown' : stack.shownCount = stack.count := if_neg hempty
      rw [hshown] at hspace
      rw [hshown, hshown']
      set toAdd := min stack.count (maxSize - existing.count) with htoAdd
      have hamounts := amount_transfer hkind (le_of_lt hpos') (n := toAdd) (by omega) (by omega)
      have hfits : S.Fits mode ((S.menu i).player.inventory slot) (existing.grow toAdd) := by
        apply fits_inventory
        · dsimp only [grow]
          omega
        · have hlimit : (existing.grow toAdd).maxStackSize = stack.maxStackSize := by
            simp only [maxStackSize, grow, hkind]
          rw [hlimit]
          dsimp only [grow]
          omega
      simp only [spec_bind]
      apply does_setItemNoUpdate (reaches_inventory slot)
      refine (ih (stack.shrink toAdd) _ _ (hw.setCell hfits)
        (by dsimp only [shrink]; omega) hmax).mono ?_
      intro left hand' t hleft
      apply LeftOver.trans _ hleft
      refine ⟨rfl, by dsimp only [shrink]; omega, by dsimp only [shrink]; omega,
        hw.setCell hfits, rfl, ?_⟩
      rw [← hexisting, eq_sub_of_add_eq hamounts]
      abel
    · exact ih stack hand w hw hstack hmax

theorem does_fillEmpty {maxSize : ℤ} (hmaxSize : 0 ≤ maxSize) (slots : List ℕ) :
    ∀ (stack : ItemStack κ) (hand : κ → ℤ) (w : World ι Pos κ), S.Valid mode w →
    0 ≤ stack.count → maxSize ≤ stack.maxStackSize →
    A.Does mode ((S.menu i).player.fillEmpty maxSize slots stack)
      (LeftOver S mode i hand stack w) hand w := by
  induction slots with
  | nil =>
    intro stack hand w hw hstack _
    exact .refl hw hstack
  | cons slot slots ih =>
    intro stack hand w hw hstack hmax
    unfold fillEmpty
    split_ifs with hempty
    · exact .refl hw hstack
    simp only [spec_bind, spec_read]
    split_ifs with hfree
    · have hpos := count_pos hempty
      have hshown : stack.shownCount = stack.count := if_neg hempty
      rw [hshown]
      simp only [split]
      generalize hplace : min (min stack.count maxSize) stack.count = placed
      have hamounts := stack.amount_split (n := placed) (by omega) (by omega)
      have hfits : S.Fits mode ((S.menu i).player.inventory slot) ⟨stack.kind, placed⟩ := by
        apply fits_inventory
        · dsimp only
          omega
        · change placed ≤ stack.maxStackSize
          omega
      simp only [spec_bind]
      apply does_setItemNoUpdate (reaches_inventory slot)
      refine (ih (stack.shrink placed) _ _ (hw.setCell hfits)
        (by dsimp only [shrink]; omega) hmax).mono ?_
      intro left hand' t hleft
      apply LeftOver.trans _ hleft
      refine ⟨rfl, by dsimp only [shrink]; omega, by dsimp only [shrink]; omega,
        hw.setCell hfits, rfl, ?_⟩
      rw [amount_of_isEmpty hfree, ← hamounts]
      abel
    · exact ih stack hand w hw hstack hmax

theorem does_add {stack : ItemStack κ} (hw : S.Valid mode w) (hstack : 0 ≤ stack.count) :
    A.Does mode ((S.menu i).player.add stack)
      (fun result hand' t => result.1 = decide result.2.IsEmpty ∧
        LeftOver S mode i hand stack w result.2 hand' t) hand w := by
  have hmax : min inventoryMaxStackSize stack.maxStackSize ≤ stack.maxStackSize :=
    min_le_right _ _
  have hnonneg : 0 ≤ min inventoryMaxStackSize stack.maxStackSize := by
    have := ItemKind.one_le_maxStackSize stack.kind
    simp only [inventoryMaxStackSize, maxStackSize]
    omega
  have hfill : ∀ mid hand' t, LeftOver S mode i hand stack w mid hand' t →
      A.Does mode ((S.menu i).player.fillEmpty
        (min inventoryMaxStackSize stack.maxStackSize) (List.range 36) mid)
        (fun left hand'' u => LeftOver S mode i hand stack w left hand'' u) hand' t := by
    intro mid hand' t hmid
    have hlimit : mid.maxStackSize = stack.maxStackSize :=
      congrArg ItemKind.maxStackSize hmid.kind_eq
    refine (does_fillEmpty hnonneg _ mid hand' t hmid.valid hmid.nonneg (hlimit ▸ hmax)).mono ?_
    exact fun left hand'' u hleft => hmid.trans hleft
  unfold add
  split_ifs with hempty hstackable
  · exact ⟨by simp [hempty], .refl hw hstack⟩
  · simp only [spec_bind, spec_pure]
    refine (does_topUp _ stack hand w hw hstack hmax).mono ?_
    intro mid hand' t hmid
    exact (hfill mid hand' t hmid).mono fun left hand'' u hleft => ⟨trivial, hleft⟩
  · simp only [spec_bind, spec_pure]
    exact (hfill stack hand w (.refl hw hstack)).mono fun left hand'' u hleft => ⟨trivial, hleft⟩

end Inventory

end Steel
