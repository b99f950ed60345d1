import Steel.Inventory.MenuSpecs

/-! # What clicks do between slots

Shift-clicks, swaps with the player's inventory and double-clicks. A shift-click holds
a copy of its source while it fills its targets, so the source must not change in the
meantime.
-/

namespace Steel

open Setup ItemStack List Menu ItemStack Int

variable {ι Pos κ : Type} {S : Setup ι Pos κ} {i : ι}

/-- A position stays as it is when others act because one of the slots was changed. -/
def PlayerAccess.Keeps (A : PlayerAccess S i) (pos : Pos) (slots : List ℕ) : Prop :=
  ∀ k ∈ slots, ∀ slot, (S.menu i).slots[k]? = some slot →
    ∀ w t, A.After slot.pos w t → t.cells pos = w.cells pos

/-- The source of a shift-click stays as it is while the targets of its route are filled. -/
def PlayerAccess.KeepsSource (A : PlayerAccess S i) (slotIndex : ℕ) : Prop :=
  ∀ slot, (S.menu i).slots[slotIndex]? = some slot →
    ∀ route, (S.menu i).routeOf slotIndex = some route →
      ∀ target ∈ route.targets, A.Keeps slot.pos (target.walk route.direction)

variable [DecidableEq κ] [ItemKind κ] {mode : Mode} {w : World ι Pos κ} {hand : κ → ℤ}

open PlayerAccess

section Moved

variable {A : PlayerAccess S i} {pos : Pos}

/-- A part of the stack has been moved, and its source is as it was. -/
structure Moved (S : Setup ι Pos κ) (mode : Mode) (i : ι) (pos : Pos) (hand : κ → ℤ)
    (stack : ItemStack κ) (w : World ι Pos κ) (left : ItemStack κ) (hand' : κ → ℤ)
    (t : World ι Pos κ) : Prop extends LeftOver S mode i hand stack w left hand' t where
  source_eq : t.cells pos = w.cells pos

/-- The result of a pass, which also tells whether anything changed. -/
structure Passed (S : Setup ι Pos κ) (mode : Mode) (i : ι) (pos : Pos) (hand : κ → ℤ)
    (stack : ItemStack κ) (changed : Bool) (w : World ι Pos κ) (result : ItemStack κ × Bool)
    (hand' : κ → ℤ) (t : World ι Pos κ) : Prop
    extends Moved S mode i pos hand stack w result.1 hand' t where
  unchanged : result.2 = false → changed = false ∧ result.1 = stack

variable {stack : ItemStack κ} {changed : Bool}

theorem Passed.refl (hw : S.Valid mode w) (hstack : 0 ≤ stack.count) :
    Passed S mode i pos hand stack changed w (stack, changed) hand w where
  toLeftOver := .refl hw hstack
  source_eq := rfl
  unchanged h := ⟨h, rfl⟩

theorem Moved.passed {left : ItemStack κ} {hand' : κ → ℤ} {t : World ι Pos κ}
    (h : Moved S mode i pos hand stack w left hand' t) :
    Passed S mode i pos hand stack changed w (left, true) hand' t where
  toMoved := h
  unchanged h := nomatch h

theorem Passed.trans {mid result : ItemStack κ × Bool} {hand' hand'' : κ → ℤ} {t u : World ι Pos κ}
    (h : Passed S mode i pos hand stack changed w mid hand' t)
    (h' : Passed S mode i pos hand' mid.1 mid.2 t result hand'' u) :
    Passed S mode i pos hand stack changed w result hand'' u where
  toLeftOver := h.toLeftOver.trans h'.toLeftOver
  source_eq := h'.source_eq.trans h.source_eq
  unchanged hfalse := by
    obtain ⟨hmid, hresult⟩ := h'.unchanged hfalse
    rw [hresult]
    exact h.unchanged hmid

end Moved

variable [Fintype ι] [Fintype Pos] {A : PlayerAccess S i} {slot : Slot Pos κ} {pos : Pos}

section Targets

variable [DecidableEq Pos]

variable {stack : ItemStack κ} {sourceSlot : ℕ} {direction : FillDirection}

theorem does_stackOnto {count : ℤ} {Q : Unit → (κ → ℤ) → World ι Pos κ → Prop} (hw : S.Valid mode w)
    (hslot : slot ∈ (S.menu i).slots) (hpos : slot.pos ≠ pos)
    (hkeeps : ∀ w t, A.After slot.pos w t → t.cells pos = w.cells pos)
    (hkind : (w.cells slot.pos).kind = stack.kind) (hle : (w.cells slot.pos).count ≤ count)
    (hcount : count ≤ (w.cells slot.pos).count + stack.count)
    (hlimit : count ≤ slot.getMaxStackSizeForItem S.containers (w.cells slot.pos))
    (hQ : ∀ hand' t, Moved S mode i pos hand stack w
      (stack.shrink (count - (w.cells slot.pos).count)) hand' t → Q () hand' t) :
    A.Does mode (setItemNoUpdate slot.pos ((w.cells slot.pos).setCount count))
      (fun _ hand' t => A.Does mode (slot.setChanged S.containers) Q hand' t) hand w := by
  have hnonneg := (hw.fits slot.pos).nonneg
  have hfits : S.Fits mode slot.pos ((w.cells slot.pos).setCount count) := by
    apply fits_of_le_limit
    · exact le_trans hnonneg hle
    · exact hlimit
  have hamounts := amount_transfer hkind hnonneg
    (n := count - (w.cells slot.pos).count) (by omega) (by omega)
  have hgrow : (w.cells slot.pos).grow (count - (w.cells slot.pos).count) =
      (w.cells slot.pos).setCount count := by
    simp only [grow, setCount, ItemStack.mk.injEq, true_and]
    omega
  rw [hgrow] at hamounts
  apply does_setItemNoUpdate (reaches_slot hslot)
  apply does_notifyOwner (hw.setCell hfits)
  intro t ht hvalid
  apply hQ
  refine ⟨⟨rfl, ?_, ?_, hvalid, ht.menu_eq, ?_⟩, ?_⟩
  · dsimp only [shrink]
    omega
  · dsimp only [shrink]
    omega
  · rw [eq_sub_of_add_eq hamounts]
    abel
  · rw [hkeeps _ t ht, World.cells_setCell_of_ne w _ hpos.symm]

theorem does_stackPass (slots : List ℕ) (hslots : ∀ k ∈ slots, k < (S.menu i).slots.length)
    (hkeeps : A.Keeps pos slots) :
    ∀ (stack : ItemStack κ) (changed : Bool) (hand : κ → ℤ) (w : World ι Pos κ),
    S.Valid mode w → 0 ≤ stack.count →
    A.Does mode ((S.menu i).stackPass S.containers sourceSlot pos slots stack changed)
      (Passed S mode i pos hand stack changed w) hand w := by
  induction slots with
  | nil =>
    intro stack changed hand w hw hstack
    exact .refl hw hstack
  | cons destSlot slots ih =>
    intro stack changed hand w hw hstack
    have ih := ih (fun k hk => hslots k (mem_cons_of_mem _ hk))
      fun k hk => hkeeps k (mem_cons_of_mem _ hk)
    unfold stackPass
    split_ifs with hempty
    · exact .refl hw hstack
    simp only [spec_bind]
    apply does_getSlot (hslots destSlot mem_cons_self)
    intro slot hslot hget
    have hkeep := hkeeps destSlot mem_cons_self slot hget
    split_ifs with hsource
    · exact ih stack changed hand w hw hstack
    have hpos : slot.pos ≠ pos := fun h => hsource (.inr h)
    simp only [getItem, spec_bind, spec_read, spec_pure]
    split_ifs with hsame htotal hpart
    · have hkind := kind_eq_of_same hsame.2 hsame.1
      simp only [spec_bind]
      apply does_stackOnto hw hslot hpos hkeep hkind.symm (by omega) (by omega) htotal
      intro hand' t hmoved
      have hzero : stack.shrink ((w.cells slot.pos).count + stack.count -
          (w.cells slot.pos).count) = stack.setCount 0 := by
        simp only [shrink, setCount, ItemStack.mk.injEq, true_and]
        omega
      rw [hzero] at hmoved
      refine (ih _ true hand' t hmoved.valid hmoved.nonneg).mono ?_
      exact fun result hand'' u h => hmoved.passed.trans h
    · have hkind := kind_eq_of_same hsame.2 hsame.1
      simp only [spec_bind]
      apply does_stackOnto hw hslot hpos hkeep hkind.symm (by omega) (by omega) (le_refl _)
      intro hand' t hmoved
      refine (ih _ true hand' t hmoved.valid hmoved.nonneg).mono ?_
      exact fun result hand'' u h => hmoved.passed.trans h
    · exact ih stack changed hand w hw hstack
    · exact ih stack changed hand w hw hstack

theorem does_placePass (slots : List ℕ) (hslots : ∀ k ∈ slots, k < (S.menu i).slots.length)
    (hkeeps : A.Keeps pos slots) {changed : Bool} (hw : S.Valid mode w) (hstack : 0 ≤ stack.count) :
    A.Does mode ((S.menu i).placePass S.containers sourceSlot pos slots stack changed)
      (Passed S mode i pos hand stack changed w) hand w := by
  induction slots with
  | nil => exact .refl hw hstack
  | cons destSlot slots ih =>
    have ih := ih (fun k hk => hslots k (mem_cons_of_mem _ hk))
      fun k hk => hkeeps k (mem_cons_of_mem _ hk)
    unfold placePass
    simp only [spec_bind]
    apply does_getSlot (hslots destSlot mem_cons_self)
    intro slot hslot hget
    have hkeep := hkeeps destSlot mem_cons_self slot hget
    split_ifs with hsource
    · exact ih
    have hpos : pos ≠ slot.pos := fun h => hsource (.inr h.symm)
    simp only [getItem, spec_bind, spec_read, spec_pure]
    split_ifs with hplace
    · have hlimit := hw.limit_nonneg hslot stack
      simp only [split, Slot.setByPlayer, spec_bind]
      generalize hcount : min (min stack.count
        (slot.getMaxStackSizeForItem S.containers stack)) stack.count = placed
      have hamounts := stack.amount_split (n := placed) (by omega) (by omega)
      apply does_setItem hslot hw
      · apply fits_of_le_limit
        · dsimp only
          omega
        · change placed ≤ slot.getMaxStackSizeForItem S.containers stack
          omega
      intro t ht hvalid
      apply does_notifyOwner hvalid
      intro u hu hvalid'
      apply Moved.passed
      refine ⟨⟨rfl, ?_, ?_, hvalid', (ht.trans hu).menu_eq, ?_⟩, ?_⟩
      · dsimp only [shrink]
        omega
      · dsimp only [shrink]
        omega
      · rw [amount_of_isEmpty hplace.1, ← hamounts]
        abel
      · rw [hkeep _ u (ht.trans hu), World.cells_setCell_of_ne w _ hpos]
    · exact ih

theorem SlotRange.mem_walk {range : SlotRange} {k : ℕ} :
    k ∈ range.walk direction ↔ range.start ≤ k ∧ k < range.stop := by
  have hrange : k ∈ List.range' range.start (range.stop - range.start) ↔
      range.start ≤ k ∧ k < range.stop := by
    rw [mem_range'_1]
    omega
  cases direction with
  | forward => exact hrange
  | backward => exact mem_reverse.trans hrange

theorem does_moveItemStackTo {range : SlotRange} (hrange : range.stop ≤ (S.menu i).slots.length)
    (hkeeps : A.Keeps pos (range.walk direction)) (hw : S.Valid mode w) (hstack : 0 ≤ stack.count) :
    A.Does mode ((S.menu i).moveItemStackTo S.containers sourceSlot pos stack range direction)
      (Passed S mode i pos hand stack false w) hand w := by
  have hslots : ∀ k ∈ range.walk direction, k < (S.menu i).slots.length :=
    fun k hk => Nat.lt_of_lt_of_le (SlotRange.mem_walk.mp hk).2 hrange
  have hplace : ∀ (result : ItemStack κ × Bool) hand' t,
      Passed S mode i pos hand stack false w result hand' t →
      A.Does mode (if result.1.IsEmpty then pure (result.1, result.2) else
        (S.menu i).placePass S.containers sourceSlot pos (range.walk direction) result.1 result.2)
        (Passed S mode i pos hand stack false w) hand' t := by
    intro result hand' t hmoved
    split_ifs
    · exact hmoved
    · refine (does_placePass _ hslots hkeeps hmoved.valid hmoved.nonneg).mono ?_
      exact fun result hand'' u h => hmoved.trans h
  unfold moveItemStackTo
  split_ifs
  · exact .refl hw hstack
  · simp only [spec_bind]
    refine (does_stackPass _ hslots hkeeps stack false hand w hw hstack).mono ?_
    exact hplace
  · exact hplace (stack, false) hand w (.refl hw hstack)

theorem does_moveToTargets (targets : List SlotRange)
    (htargets : ∀ target ∈ targets, target.stop ≤ (S.menu i).slots.length ∧
      A.Keeps pos (target.walk direction)) :
    ∀ (stack : ItemStack κ) (hand : κ → ℤ) (w : World ι Pos κ), S.Valid mode w →
    0 ≤ stack.count →
    A.Does mode ((S.menu i).moveToTargets S.containers sourceSlot pos direction targets stack)
      (Passed S mode i pos hand stack false w) hand w := by
  induction targets with
  | nil =>
    intro stack hand w hw hstack
    exact .refl hw hstack
  | cons target targets ih =>
    intro stack hand w hw hstack
    obtain ⟨hrange, hkeeps⟩ := htargets target mem_cons_self
    unfold moveToTargets
    simp only [spec_bind]
    refine (does_moveItemStackTo hrange hkeeps hw hstack).mono ?_
    intro result hand' t hmoved
    split_ifs with hchanged
    · rwa [← hchanged]
    · refine (ih (fun target h => htargets target (mem_cons_of_mem _ h)) result.1 hand' t
        hmoved.valid hmoved.nonneg).mono ?_
      intro result' hand'' u h
      rw [Bool.not_eq_true] at hchanged
      exact hmoved.trans (hchanged ▸ h)

end Targets

section QuickMove

variable [DecidableEq Pos]

theorem does_updateQuickMoveSource {remaining clicked : ItemStack κ}
    {Q : Unit → (κ → ℤ) → World ι Pos κ → Prop} (hw : S.Valid mode w)
    (hslot : slot ∈ (S.menu i).slots) (hclicked : ¬ clicked.IsEmpty)
    (hsource : w.cells slot.pos = clicked) (hkind : remaining.kind = clicked.kind)
    (hnonneg : 0 ≤ remaining.count) (hle : remaining.count ≤ clicked.count)
    (hQ : ∀ t, S.Valid mode t → (A.Sequential → (t.cells slot.pos).count = remaining.count) →
      Q () (hand + (clicked.amount - remaining.amount)) t) :
    A.Does mode (updateQuickMoveSource S.containers slot remaining clicked) Q hand w := by
  have hfits := hw.fits slot.pos
  unfold updateQuickMoveSource
  split_ifs with hempty
  · have hzero : remaining.count = 0 := by
      rcases hempty with hair | hzero
      · exact absurd (hkind ▸ hair) (item_kind_ne_zero hclicked)
      · omega
    apply does_setItem hslot hw hfits.empty
    intro t ht hvalid
    rw [hsource, amount_empty, ← amount_of_isEmpty hempty]
    apply hQ t hvalid
    intro hseq
    rw [ht.eq_of_sequential hseq, World.cells_setCell_self, hzero]
    rfl
  · have hfits' : S.Fits mode slot.pos remaining := by
      have h := hfits.of_le hnonneg (hsource ▸ hle)
      rwa [hsource, ← hkind] at h
    simp only [spec_bind]
    apply does_setItemNoUpdate (reaches_slot hslot)
    apply does_notifyOwner (hw.setCell hfits')
    intro t ht hvalid
    rw [hsource]
    apply hQ t hvalid
    intro hseq
    rw [ht.eq_of_sequential hseq, World.cells_setCell_self]

variable {slotIndex : ℕ}

/-- A shift-click returns with empty hands. If it moved something, less is in the slot now. -/
theorem does_quickMove (hget : (S.menu i).slots[slotIndex]? = some slot)
    (hkeeps : A.KeepsSource slotIndex) (hw : S.Valid mode w) :
    A.Does mode ((S.menu i).quickMove S.containers slotIndex)
      (fun result hand' t => S.Valid mode t ∧ hand' = hand ∧ (¬ result.IsEmpty → A.Sequential →
        (t.cells slot.pos).count < (w.cells slot.pos).count)) hand w := by
  have hslot := mem_of_getElem? hget
  have hnothing : S.Valid mode w ∧ hand = hand ∧ (¬ (.empty : ItemStack κ).IsEmpty →
      A.Sequential → (w.cells slot.pos).count < (w.cells slot.pos).count) :=
    ⟨hw, rfl, fun h => absurd isEmpty_empty h⟩
  unfold quickMove
  split
  · exact hnothing
  rename_i route hroute
  have htargets : ∀ target ∈ route.targets, target.stop ≤ (S.menu i).slots.length ∧
      A.Keeps slot.pos (target.walk route.direction) := by
    intro target htarget
    have hmem := List.mem_of_find?_eq_some hroute
    exact ⟨(S.menu i).routes_le route hmem target htarget,
      hkeeps slot hget route hroute target htarget⟩
  simp only [getSlot, hget]
  change A.Does mode (Locked.read >>= _) _ hand w
  simp only [spec_bind, spec_read]
  split_ifs with hempty hdenied
  · exact hnothing
  · exact hnothing
  simp only [spec_bind]
  refine (does_moveToTargets _ htargets _ hand w hw (hw.fits slot.pos).nonneg).mono ?_
  intro result hand' t hmoved
  by_cases hchanged : result.2 = false
  · rw [if_pos hchanged]
    refine ⟨hmoved.valid, ?_, fun h => absurd isEmpty_empty h⟩
    rw [hmoved.hand_eq, (hmoved.unchanged hchanged).2, sub_self, add_zero]
  rw [if_neg hchanged]
  simp only [spec_bind]
  apply does_updateQuickMoveSource hmoved.valid hslot hempty hmoved.source_eq hmoved.kind_eq
    hmoved.nonneg hmoved.le
  intro u hvalid hcount
  have hhand : hand' + ((w.cells slot.pos).amount - result.1.amount) = hand := by
    rw [hmoved.hand_eq]
    abel
  rw [hhand]
  split_ifs with hsame
  · exact ⟨hvalid, rfl, fun h => absurd isEmpty_empty h⟩
  · simp only [spec_bind]
    apply does_notifyOwner hvalid
    intro v hv hvalid'
    refine ⟨hvalid', rfl, fun _ hseq => ?_⟩
    have hle := hmoved.le
    rw [hv.eq_of_sequential hseq, hcount hseq]
    omega

theorem does_quickMoveLoop_of_isEmpty {fuel : ℕ} {result : ItemStack κ} (hresult : result.IsEmpty)
    (hw : S.Valid mode w) (hfuel : A.Sequential → 0 < fuel) :
    A.Does mode ((S.menu i).quickMoveLoop S.containers slotIndex slot fuel result)
      (Clicked S mode hand) hand w := by
  cases fuel with
  | zero => exact ⟨fun hseq => Nat.lt_irrefl 0 (hfuel hseq), hw⟩
  | succ fuel =>
    unfold quickMoveLoop
    rw [if_pos hresult]
    exact ⟨hw, fun _ _ => rfl⟩

theorem does_quickMoveLoop (hget : (S.menu i).slots[slotIndex]? = some slot)
    (hkeeps : A.KeepsSource slotIndex) (fuel : ℕ) :
    ∀ (result : ItemStack κ) (w : World ι Pos κ), S.Valid mode w →
    (A.Sequential → (w.cells slot.pos).count < fuel) →
    A.Does mode ((S.menu i).quickMoveLoop S.containers slotIndex slot fuel result)
      (Clicked S mode hand) hand w := by
  induction fuel with
  | zero =>
    intro result w hw hfuel
    refine ⟨fun hseq => ?_, hw⟩
    have hlt := hfuel hseq
    have hnonneg := (hw.fits slot.pos).nonneg
    omega
  | succ fuel ih =>
    intro result w hw hfuel
    unfold quickMoveLoop
    split_ifs with hempty
    · exact ⟨hw, fun _ _ => rfl⟩
    simp only [getItem, spec_bind, spec_read, spec_pure]
    split_ifs with hsame
    · simp only [spec_bind]
      refine (does_quickMove hget hkeeps hw).mono ?_
      rintro result' hand' t ⟨hvalid, rfl, hless⟩
      by_cases hdone : result'.IsEmpty
      · apply does_quickMoveLoop_of_isEmpty hdone hvalid
        intro hseq
        have hlt := hfuel hseq
        have hpos := count_pos (not_isEmpty_of_same hsame hempty)
        push_cast at hlt
        omega
      · apply ih result' t hvalid
        intro hseq
        have hlt := hfuel hseq
        have hless := hless hdone hseq
        push_cast at hlt
        omega
    · exact ⟨hw, fun _ _ => rfl⟩

theorem does_doQuickMove {fuel : ℕ} (hindex : slotIndex < (S.menu i).slots.length)
    (hkeeps : A.KeepsSource slotIndex) (hfuel : A.Sequential → 100 ≤ fuel) (hw : S.Valid mode w) :
    A.Does mode ((S.menu i).doQuickMove S.containers fuel slotIndex)
      (Clicked S mode hand) hand w := by
  unfold doQuickMove
  simp only [spec_bind, spec_read]
  apply does_getSlot hindex
  intro slot hslot hget
  split_ifs
  · exact ⟨hw, fun _ _ => rfl⟩
  · exact ⟨hw, fun _ _ => rfl⟩
  simp only [spec_bind]
  refine (does_quickMove hget hkeeps hw).mono ?_
  rintro result hand' t ⟨hvalid, rfl, -⟩
  apply does_quickMoveLoop hget hkeeps fuel result t hvalid
  intro hseq
  have hle := hvalid.count_le hslot
  have := hfuel hseq
  omega

end QuickMove

section Swap

variable [DecidableEq Pos] {Q : Unit → (κ → ℤ) → World ι Pos κ → Prop}

theorem does_exchange {k : ℕ} {atInventory atSlot target : ItemStack κ} (hw : S.Valid mode w)
    (hslot : slot ∈ (S.menu i).slots)
    (hinventory : S.Fits mode ((S.menu i).player.inventory k) atInventory)
    (hfits : S.Fits mode slot.pos atSlot)
    (htarget : (w.setCell ((S.menu i).player.inventory k) atInventory).cells slot.pos = target)
    (hQ : ∀ t, S.Valid mode t →
      Q () (hand + ((w.cells ((S.menu i).player.inventory k)).amount + target.amount -
        (atInventory.amount + atSlot.amount))) t) :
    A.Does mode (setItemNoUpdate ((S.menu i).player.inventory k) atInventory)
      (fun _ hand' t => A.Does mode (slot.setItem S.containers atSlot) Q hand' t) hand w := by
  apply does_setItemNoUpdate (reaches_inventory k)
  apply does_setItem hslot (hw.setCell hinventory) hfits
  intro t _ hvalid
  have h := hQ t hvalid
  rw [htarget]
  convert h using 1
  abel

/-- As much of the inventory's stack as the slot takes goes into it. What was in the slot is
in hand then. -/
theorem does_placePart {k : ℕ} (hw : S.Valid mode w)
    (hslot : slot ∈ (S.menu i).slots) (hpos : slot.pos ≠ (S.menu i).player.inventory k)
    (hbig : slot.getMaxStackSizeForItem S.containers
      (w.cells ((S.menu i).player.inventory k)) < (w.cells ((S.menu i).player.inventory k)).count)
    (hQ : ∀ t, S.Valid mode t → Q () (hand + (w.cells slot.pos).amount) t) :
    A.Does mode (setItemNoUpdate ((S.menu i).player.inventory k)
      ((w.cells ((S.menu i).player.inventory k)).split (slot.getMaxStackSizeForItem S.containers
        (w.cells ((S.menu i).player.inventory k)))).2)
      (fun _ hand' t => A.Does mode (slot.setItem S.containers
        ((w.cells ((S.menu i).player.inventory k)).split (slot.getMaxStackSizeForItem S.containers
          (w.cells ((S.menu i).player.inventory k)))).1) Q hand' t) hand w := by
  have hsource := hw.fits ((S.menu i).player.inventory k)
  set source := w.cells ((S.menu i).player.inventory k)
  have hlimit := hw.limit_nonneg hslot source
  set limit := slot.getMaxStackSizeForItem S.containers source with hlimit_def
  have hmin : min limit source.count = limit := by omega
  have hamounts := source.amount_split (n := limit) hlimit (by omega)
  simp only [split, hmin]
  apply does_exchange hw hslot
  · exact hsource.of_le (by omega) (by omega)
  · exact fits_of_le_limit hlimit (le_of_eq hlimit_def)
  · exact w.cells_setCell_of_ne _ hpos
  intro t hvalid
  have h := hQ t hvalid
  convert h using 2
  rw [← hamounts]
  abel

/-- Swapping with the player's inventory. A creative player may lose what does not fit. -/
theorem does_doSwap {slotIndex : ℕ} {target : SwapTarget}
    (hindex : slotIndex < (S.menu i).slots.length)
    (hcreative : (S.menu i).player.hasInfiniteMaterials = true → mode.cloneClicks)
    (hw : S.Valid mode w) :
    A.Does mode ((S.menu i).doSwap S.containers slotIndex target) (Clicked S mode hand) hand w := by
  have hnothing : Clicked S mode hand () hand w := ⟨hw, fun _ _ => rfl⟩
  unfold doSwap
  simp only [spec_bind, spec_read]
  apply does_getSlot hindex
  intro slot hslot _
  have htarget := hw.fits slot.pos
  have hsource := hw.fits ((S.menu i).player.inventory target.inventorySlot)
  have hinventory :
      S.Fits mode ((S.menu i).player.inventory target.inventorySlot) (w.cells slot.pos) :=
    fits_inventory htarget.nonneg (htarget.le_item (limited_slot hslot))
  have hcell := w.cells_setCell_copy ((S.menu i).player.inventory target.inventorySlot) slot.pos
  split_ifs with hboth hempty hpickup hfree hplace hbig hpickup hbig
  · exact hnothing
  · simp only [spec_bind]
    apply does_exchange hw hslot hinventory htarget.empty hcell
    intro t hvalid
    apply does_notifyOwner hvalid
    intro u _ hvalid'
    refine ⟨hvalid', fun _ _ => ?_⟩
    rw [amount_of_isEmpty hempty, amount_empty]
    abel
  · exact hnothing
  · have hpos : slot.pos ≠ (S.menu i).player.inventory target.inventorySlot :=
      fun h => hempty (h ▸ hfree)
    apply does_placePart hw hslot hpos hbig
    intro t hvalid
    refine ⟨hvalid, fun _ _ => ?_⟩
    rw [amount_of_isEmpty hfree, add_zero]
  · have hpos : slot.pos ≠ (S.menu i).player.inventory target.inventorySlot :=
      fun h => hempty (h ▸ hfree)
    simp only [Slot.setByPlayer, spec_bind]
    apply does_exchange hw hslot hsource.empty
    · exact fits_of_le_limit hsource.nonneg (not_lt.mp hbig)
    · exact w.cells_setCell_of_ne _ hpos
    intro t hvalid
    refine ⟨hvalid, fun _ _ => ?_⟩
    rw [amount_of_isEmpty hfree, amount_empty]
    abel
  · exact hnothing
  · have hpos : slot.pos ≠ (S.menu i).player.inventory target.inventorySlot := by
      intro h
      rw [← h] at hbig
      have := htarget.le_container (limited_slot hslot)
      have := htarget.le_item (limited_slot hslot)
      simp only [Slot.getMaxStackSizeForItem] at hbig
      omega
    simp only [Slot.setByPlayer, spec_bind]
    apply does_placePart hw hslot hpos hbig
    intro t hvalid
    apply does_notifyOwner hvalid
    intro u _ hvalid'
    refine (does_add hvalid' htarget.nonneg).mono ?_
    rintro ⟨added, displaced⟩ hand' v ⟨hadded, hleft⟩
    have hhand : hand' = hand + displaced.amount := by
      rw [hleft.hand_eq]
      abel
    dsimp only at hadded
    split_ifs with hdrop
    · apply does_dropUnlocked hleft.valid
      intro x hx _ _
      refine ⟨hx, fun _ _ => ?_⟩
      rw [hhand, add_sub_cancel_right]
    · refine ⟨hleft.valid, fun hclicks _ => ?_⟩
      have hempty : displaced.IsEmpty := by
        by_contra hne
        apply hdrop
        refine ⟨by simp [hadded, hne], ?_⟩
        rw [← Bool.not_eq_true]
        exact fun h => hclicks (hcreative h)
      rw [hhand, amount_of_isEmpty hempty, add_zero]
  · simp only [Slot.setByPlayer, spec_bind]
    apply does_exchange hw hslot hinventory
    · exact fits_of_le_limit hsource.nonneg (not_lt.mp hbig)
    · exact hcell
    intro t hvalid
    apply does_notifyOwner hvalid
    intro u _ hvalid'
    refine ⟨hvalid', fun _ _ => ?_⟩
    abel
  · exact hnothing

end Swap

variable [DecidableEq ι]

section PickupAll

/-- The cursor collects one kind of item, and nothing is left in hand. -/
structure Collected (S : Setup ι Pos κ) (mode : Mode) (i : ι) (k : κ) (hand : κ → ℤ) (_ : Unit)
    (hand' : κ → ℤ) (t : World ι Pos κ) : Prop where
  valid : S.Valid mode t
  kind_eq : (t.menus i).carried.kind = k
  nonneg : 0 ≤ (t.menus i).carried.count
  hand_eq : hand' = hand

/-- What was taken out of a slot goes to the cursor, and there is room for it. -/
theorem does_growCarried {canTake : ℤ} {taken carriedItem : ItemStack κ}
    (hw : S.Valid mode w) (hkind : (w.menus i).carried.kind = carriedItem.kind)
    (hnonneg : 0 ≤ (w.menus i).carried.count) (htaken : 0 ≤ taken.count)
    (hle : taken.count ≤ canTake)
    (hspace : (w.menus i).carried.count + canTake ≤ carriedItem.maxStackSize)
    (hamount : (⟨carriedItem.kind, taken.count⟩ : ItemStack κ).amount = taken.amount) :
    A.Does mode (modifyMenu i fun state =>
      { state with carried := state.carried.grow (min taken.count canTake) })
      (Collected S mode i carriedItem.kind hand) (hand + taken.amount) w := by
  rw [min_eq_left hle]
  have hgrow := (w.menus i).carried.amount_grow hnonneg htaken
  rw [hkind, hamount] at hgrow
  apply does_modifyMenu hw
  · refine ⟨⟨fun _ => ?_, fun _ => ?_⟩, (hw.menus i).quickcraft_ne, (hw.menus i).slots_lt⟩
    · change (w.menus i).carried.count + taken.count ≤
        ItemKind.maxStackSize (w.menus i).carried.kind
      rw [hkind]
      exact Int.le_trans (Int.add_le_add_left hle _) hspace
    · dsimp only [grow]
      omega
  intro hvalid
  refine ⟨hvalid, ?_, ?_, ?_⟩
  · rw [World.menus_setMenu_self]
    exact hkind
  · rw [World.menus_setMenu_self]
    dsimp only [grow]
    omega
  · rw [hgrow]
    abel

variable [DecidableEq Pos]

theorem does_pickupAllPass {secondPass : Bool} {carriedItem : ItemStack κ} (slots : List ℕ)
    (hslots : ∀ k ∈ slots, k < (S.menu i).slots.length) :
    ∀ w : World ι Pos κ, Collected S mode i carriedItem.kind hand () hand w →
    A.Does mode ((S.menu i).pickupAllPass S.containers i secondPass carriedItem slots)
      (Collected S mode i carriedItem.kind hand) hand w := by
  induction slots with
  | nil => exact fun w hw => hw
  | cons index slots ih =>
    intro w hw
    have ih := ih fun k hk => hslots k (mem_cons_of_mem _ hk)
    have hnext : ∀ (_ : Unit) hand' t, Collected S mode i carriedItem.kind hand () hand' t →
        A.Does mode ((S.menu i).pickupAllPass S.containers i secondPass carriedItem slots)
          (Collected S mode i carriedItem.kind hand) hand' t := by
      intro _ hand' t h
      obtain rfl := h.hand_eq
      exact ih t h
    unfold pickupAllPass
    simp only [spec_bind, spec_read]
    split_ifs with hfull
    · simp only [spec_bind]
      apply does_getSlot (hslots index mem_cons_self)
      intro slot hslot _
      split_ifs with htake
      · obtain ⟨hne, hreplace, -⟩ := htake
        have hkind : carriedItem.kind = (w.cells slot.pos).kind := by
          obtain hempty | ⟨hsame, -⟩ := hreplace
          · exact absurd hempty hne
          · exact kind_eq_of_same hsame hne
        simp only [spec_bind]
        apply does_safeTake hslot hw.valid
        · have hgrow : A.Does mode _ _ (hand + (.empty : ItemStack κ).amount) w :=
            does_growCarried hw.valid hw.kind_eq hw.nonneg (Int.le_refl 0)
              (Int.sub_nonneg_of_le (Int.le_of_lt hfull)) (Int.le_of_eq (by omega))
              (amount_zero.trans amount_empty.symm)
          rw [amount_empty, add_zero] at hgrow
          exact hgrow.mono hnext
        · intro taken t heq htaken hvalid hmenu _
          have hpos := count_pos htaken
          have hle : taken.count ≤ carriedItem.maxStackSize - (w.menus i).carried.count := by
            rw [heq]
            dsimp only
            omega
          have hamount : (⟨carriedItem.kind, taken.count⟩ : ItemStack κ) = taken := by
            rw [heq, hkind]
          refine (does_growCarried hvalid ?_ ?_ (Int.le_of_lt hpos) hle ?_
            (congrArg amount hamount)).mono hnext
          · rw [hmenu, hw.kind_eq]
          · rw [hmenu]
            exact hw.nonneg
          · rw [hmenu]
            omega
      · exact ih w hw
    · exact hw

theorem does_doPickupAll {slotIndex : ℕ} {direction : FillDirection}
    (hindex : slotIndex < (S.menu i).slots.length) (hw : S.Valid mode w) :
    A.Does mode ((S.menu i).doPickupAll S.containers i slotIndex direction)
      (Clicked S mode hand) hand w := by
  unfold doPickupAll
  simp only [spec_bind, spec_read]
  apply does_getSlot hindex
  intro slot hslot _
  split_ifs with hnone
  · exact ⟨hw, fun _ _ => rfl⟩
  rw [not_or] at hnone
  have hslots : ∀ k ∈ SlotRange.walk ⟨0, (S.menu i).slots.length⟩ direction,
      k < (S.menu i).slots.length := fun k hk => (SlotRange.mem_walk.mp hk).2
  have hcount := count_pos hnone.1
  simp only [spec_bind]
  refine (does_pickupAllPass _ hslots w ⟨hw, rfl, le_of_lt hcount, rfl⟩).mono ?_
  intro _ hand' t hcollected
  obtain rfl := hcollected.hand_eq
  refine (does_pickupAllPass _ hslots t hcollected).mono ?_
  exact fun _ hand'' u h => ⟨h.valid, fun _ _ => h.hand_eq⟩

end PickupAll

end Steel
