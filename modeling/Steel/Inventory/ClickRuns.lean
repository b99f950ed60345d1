import Mathlib.Data.Fintype.Sum
import Steel.Inventory.TransferSpecs

/-! # Runs of clicks

A click of a single player, and clicks one after the other. Items are conserved unless
a creative player makes them, and every stack stays within the limits of its slots.
-/

namespace Steel

open Int

def Click.isCreative : Click → Bool
  | .swap _ _ => true
  | .clone _ => true
  | .quickCraft (.start .clone) => true
  | _ => false

variable {ι Pos κ : Type}

def Setup.alone (S : Setup ι Pos κ) (i : ι) : PlayerAccess S i where
  toAccess := Access.alone (World ι Pos κ)
  menu_eq h := by rw [h]
  guar_of _ _ := trivial

theorem Setup.alone_keepsSource (S : Setup ι Pos κ) (i : ι) (k : ℕ) :
    (S.alone i).KeepsSource k := by
  intro slot _ route _ target _ j _ slot' _ w t h
  rw [h.eq_of_sequential (Access.alone_sequential _)]

variable [ItemKind κ]

def Mode.survival : Mode := ⟨False, False, False⟩

/-- What a creative player may do in a mode. -/
structure Setup.Allows (S : Setup ι Pos κ) (mode : Mode) (i : ι) (click : Click) : Prop where
  creative : (S.menu i).player.hasInfiniteMaterials = true → click.isCreative = true →
    mode.cloneClicks
  cloneDrag : (S.menu i).player.hasInfiniteMaterials = true →
    click = .quickCraft (.start .clone) → mode.cloneDrags

variable [DecidableEq ι] [DecidableEq Pos] [DecidableEq κ]

/-- Clicks of one player one after the other, without interference. -/
def Menu.run (containers : Containers Pos) (menu : Menu Pos κ) (i : ι) (fuel : ℕ) :
    List Click → World ι Pos κ → Option (World ι Pos κ)
  | [], w => some w
  | click :: clicks, w =>
    ((menu.clicked containers i fuel click).run w).bind fun r =>
      menu.run containers i fuel clicks r.2

variable [Fintype ι] [Fintype Pos] {S : Setup ι Pos κ} {mode : Mode} {i : ι}

section Clicked

variable {A : PlayerAccess S i} {w : World ι Pos κ} {hand : κ → ℤ} {fuel : ℕ}

theorem does_clickSlot {click : Click} (hfuel : A.Sequential → 100 ≤ fuel)
    (hvalid : click.isValidFor (S.menu i).slots.length = true) (hallows : S.Allows mode i click)
    (hkeeps : ∀ k, click = .quickMove k → A.KeepsSource k) (hw : S.Valid mode w) :
    A.Does mode ((S.menu i).clickSlot S.containers i fuel click) (Clicked S mode hand) hand w := by
  cases click with
  | pickup slot button => exact does_doPickup (of_decide_eq_true hvalid) hw
  | dropCarried button => exact does_dropCarried hw
  | quickMove slot => exact does_doQuickMove (of_decide_eq_true hvalid) (hkeeps slot rfl) hfuel hw
  | swap slot target =>
    apply does_doSwap _ (fun h => hallows.creative h rfl) hw
    cases target with
    | hotbar index => exact of_decide_eq_true (Bool.and_eq_true_iff.mp hvalid).1
    | offhand => exact of_decide_eq_true hvalid
  | clone slot =>
    exact does_doClone (of_decide_eq_true hvalid) (fun h => hallows.creative h rfl) hw
  | throw slot wholeStack => exact does_doThrow (of_decide_eq_true hvalid) hfuel hw
  | pickupAll slot direction => exact does_doPickupAll (of_decide_eq_true hvalid) hw
  | quickCraft action => exact ⟨hw, fun _ _ => rfl⟩

theorem does_clicked {click : Click} (hfuel : A.Sequential → 100 ≤ fuel)
    (hallows : S.Allows mode i click) (hkeeps : ∀ k, click = .quickMove k → A.KeepsSource k)
    (hw : S.Valid mode w) :
    A.Does mode ((S.menu i).clicked S.containers i fuel click) (Clicked S mode hand) hand w := by
  have hslot : click.isValidFor (S.menu i).slots.length = true →
      A.Does mode (Menu.interruptQuickCraft i >>= fun _ =>
        (S.menu i).clickSlot S.containers i fuel click) (Clicked S mode hand) hand w := by
    intro hvalid
    simp only [spec_bind]
    refine (does_interruptQuickCraft hw).mono ?_
    intro _ hand' t hreset
    refine (does_clickSlot hfuel hvalid hallows hkeeps hreset.valid).mono ?_
    exact fun _ _ _ h => h.trans hreset
  unfold Menu.clicked
  split_ifs with hvalid
  · exact ⟨hw, fun _ _ => rfl⟩
  rw [Bool.not_eq_false] at hvalid
  cases click with
  | quickCraft action =>
    apply does_doQuickCraft _ _ hw
    · rintro k rfl
      exact of_decide_eq_true hvalid
    · rintro rfl h
      exact hallows.cloneDrag h rfl
  | _ => exact hslot hvalid

end Clicked

section Run

variable {w : World ι Pos κ} {fuel : ℕ}

theorem Setup.clicked_run {click : Click} (hfuel : 100 ≤ fuel) (hallows : S.Allows mode i click)
    (hw : S.Valid mode w) :
    ∃ t, ((S.menu i).clicked S.containers i fuel click).run w = some ((), t) ∧ S.Valid mode t ∧
      (¬ mode.cloneClicks → ¬ mode.cloneDrags → t.bag = w.bag) := by
  have hdoes : (S.alone i).Does mode ((S.menu i).clicked S.containers i fuel click)
      (Clicked S mode 0) 0 w :=
    does_clicked (fun _ => hfuel) hallows (fun k _ => S.alone_keepsSource i k) hw
  obtain ⟨⟨⟩, t, hrun, hclicked⟩ := hdoes.run (Access.alone_sequential _)
  refine ⟨t, hrun, hclicked.valid, fun hclicks hdrags => ?_⟩
  have hitems := hclicked.hand_eq hclicks hdrags
  rw [zero_add] at hitems
  exact World.bag_eq_of_items_eq (sub_eq_zero.mp hitems).symm

theorem Setup.run_valid (hfuel : 100 ≤ fuel) (clicks : List Click)
    (hallows : ∀ click ∈ clicks, S.Allows mode i click) (hw : S.Valid mode w) :
    ∃ t, (S.menu i).run S.containers i fuel clicks w = some t ∧ S.Valid mode t ∧
      (¬ mode.cloneClicks → ¬ mode.cloneDrags → t.bag = w.bag) := by
  induction clicks generalizing w with
  | nil => exact ⟨w, rfl, hw, fun _ _ => rfl⟩
  | cons click clicks ih =>
    obtain ⟨t, hclick, ht, hbag⟩ := S.clicked_run hfuel (hallows click List.mem_cons_self) hw
    obtain ⟨u, hrun, hu, hbag'⟩ := ih (fun c hc => hallows c (List.mem_cons_of_mem _ hc)) ht
    refine ⟨u, ?_, hu, fun hclicks hdrags => ?_⟩
    · rw [Menu.run, hclick]
      exact hrun
    · rw [hbag' hclicks hdrags, hbag hclicks hdrags]

end Run

/-- Air and one more item. -/
inductive Sample where
  | air
  | stone
  deriving DecidableEq

instance : ItemKind Sample where
  item
    | .air => 0
    | .stone => 1
  air := .air
  item_air := rfl
  maxStackSize _ := 64
  one_le_maxStackSize _ := by omega
  maxStackSize_le _ := by omega
  isDamaged _ := false

namespace Sample

def slot {Pos : Type} (pos : Pos) : Slot Pos Sample := ⟨pos, false, fun _ => true, fun _ => true⟩

local instance neZero_three : NeZero 3 := ⟨by decide⟩

local instance neZero_fortyOne : NeZero 41 := ⟨by decide⟩

/-- A chest with three slots beside the inventory of one player. -/
def chest (creative : Bool) : Setup Unit (Fin 3 ⊕ Fin 41) Sample where
  containers := ⟨fun _ => 99, fun pos => pos.isLeft⟩
  menu _ :=
    { slots := [slot (.inl 0), slot (.inl 1), slot (.inl 2)]
      routes := [⟨⟨0, 1⟩, [⟨1, 3⟩], .forward⟩]
      routes_le := by decide
      canDragTo := fun _ => true
      canTakeItemForPickAll := fun _ _ => true
      player := ⟨fun k => .inr (Fin.ofNat 41 k), 0, creative, true⟩ }
  maxStackSize_inventory _ _ := rfl

def start (inSlot carried : ℤ) : World Unit (Fin 3 ⊕ Fin 41) Sample where
  cells pos := if pos = .inl 0 then ⟨.stone, inSlot⟩ else .empty
  menus _ := ⟨⟨.stone, carried⟩, none, []⟩
  dropped := []

theorem valid_start (creative : Bool) {mode : Mode} (inSlot carried : ℤ) (hinSlot : 0 ≤ inSlot)
    (hinSlot' : inSlot ≤ 64) (hcarried : 0 ≤ carried) (hcarried' : carried ≤ 64) :
    (chest creative).Valid mode (start inSlot carried) where
  fits pos := by
    by_cases hpos : pos = .inl 0
    · subst hpos
      have hlimit : inSlot ≤ 99 := by omega
      exact ⟨hinSlot, fun _ => hlimit, fun _ => hinSlot'⟩
    · dsimp only [start]
      rw [if_neg hpos]
      have hlimit : (0 : ℤ) ≤ 99 := by omega
      have hitem : (0 : ℤ) ≤ 64 := by omega
      exact ⟨le_refl 0, fun _ => hlimit, fun _ => hitem⟩
  menus _ := ⟨⟨fun _ => hcarried', fun _ => hcarried⟩, fun _ => by simp [start], by simp [start]⟩

end Sample

open Sample

section Main

variable {w : World ι Pos κ} {fuel : ℕ}

/-- Clicks of a survival player conserve items: every click of every sequence returns, and the
items in all positions, on the cursors and dropped are the same before and after it. -/
theorem Setup.bag_clicked_eq (hsurvival : (S.menu i).player.hasInfiniteMaterials = false)
    (hfuel : 100 ≤ fuel) (hw : S.Valid .survival w) (clicks : List Click) (click : Click) :
    ∃ t u, (S.menu i).run S.containers i fuel clicks w = some t ∧
      ((S.menu i).clicked S.containers i fuel click).run t = some ((), u) ∧
      t.bag = w.bag ∧ u.bag = t.bag := by
  have hallows : ∀ click, S.Allows .survival i click := by
    intro click
    constructor
    · intro hcreative
      rw [hsurvival] at hcreative
      cases hcreative
    · intro hcreative
      rw [hsurvival] at hcreative
      cases hcreative
  obtain ⟨t, hrun, ht, hbag⟩ := S.run_valid hfuel clicks (fun c _ => hallows c) hw
  obtain ⟨u, hclick, -, hbag'⟩ := S.clicked_run hfuel (hallows click) ht
  exact ⟨t, u, hrun, hclick, hbag id id, hbag' id id⟩

/-- A player takes the stack of a slot and places one item into the next slot. -/
theorem Sample.bag_clicked_chest :
    ∃ t u, ((chest false).menu ()).run (chest false).containers () 100
        [.pickup 0 .left] (Sample.start 5 0) = some t ∧
      (((chest false).menu ()).clicked (chest false).containers () 100
        (.pickup 1 .right)).run t = some ((), u) ∧
      t.bag = (Sample.start 5 0).bag ∧ u.bag = t.bag :=
  Setup.bag_clicked_eq rfl (Nat.le_refl 100)
    (valid_start false 5 0 (by omega) (by omega) (by omega) (by omega)) _ _

/-- Every stack stays within the limits of its slots through all clicks, clones included. A
clone drag over several slots leaves a cursor that shows no items, with a negative count. -/
theorem Setup.run_within_limits (hfuel : 100 ≤ fuel) (hw : S.Valid ⟨True, True, False⟩ w)
    (clicks : List Click) :
    ∃ t, (S.menu i).run S.containers i fuel clicks w = some t ∧
      (∀ j, ∀ slot ∈ (S.menu j).slots, 0 ≤ (t.cells slot.pos).count ∧
        (t.cells slot.pos).count ≤ slot.getMaxStackSizeForItem S.containers (t.cells slot.pos)) ∧
      (∀ j k, (t.cells ((S.menu j).player.inventory k)).count ≤
        (t.cells ((S.menu j).player.inventory k)).maxStackSize) ∧
      (t.menus i).carried.count ≤ (t.menus i).carried.maxStackSize ∧
      0 ≤ (t.menus i).carried.shownCount ∧
      (t.menus i).carried.shownCount ≤ (t.menus i).carried.maxStackSize ∧
      (((S.menu i).player.hasInfiniteMaterials = true → .quickCraft (.start .clone) ∉ clicks) →
        0 ≤ (t.menus i).carried.count) := by
  have hallows : ∀ click ∈ clicks, S.Allows ⟨True, True,
      (S.menu i).player.hasInfiniteMaterials = true ∧ .quickCraft (.start .clone) ∈ clicks⟩ i
      click := by
    intro click hclick
    exact ⟨fun _ _ => trivial, fun hcreative hclone => ⟨hcreative, hclone ▸ hclick⟩⟩
  obtain ⟨t, hrun, ht, -⟩ := S.run_valid hfuel clicks hallows (hw.cloneDrags _)
  have hle : (t.menus i).carried.count ≤ (t.menus i).carried.maxStackSize :=
    (ht.menus i).carriable.le_item trivial
  have hmax := ItemKind.one_le_maxStackSize (t.menus i).carried.kind
  refine ⟨t, hrun, ?_, ?_, hle, ?_, ?_, ?_⟩
  · intro j slot hslot
    have hfits := ht.fits slot.pos
    exact ⟨hfits.nonneg, Int.le_min.mpr ⟨hfits.le_container (Setup.limited_slot hslot),
      hfits.le_item (Setup.limited_slot hslot)⟩⟩
  · intro j k
    exact (ht.fits _).le_item (.inr ⟨trivial, j, k, rfl⟩)
  · unfold ItemStack.shownCount
    split_ifs with hempty
    · exact le_refl 0
    · exact le_of_lt (ItemStack.count_pos hempty)
  · unfold ItemStack.shownCount
    split_ifs
    · exact Int.le_trans Int.one_nonneg hmax
    · exact hle
  · intro hclones
    apply (ht.menus i).carriable.nonneg
    rintro ⟨hcreative, hclone⟩
    exact hclones hcreative hclone

theorem Sample.run_within_limits_chest :
    ∃ t, ((chest true).menu ()).run (chest true).containers () 100
        [.clone 0, .pickup 1 .left] (Sample.start 5 0) = some t ∧
      0 ≤ (t.menus ()).carried.shownCount ∧ 0 ≤ (t.menus ()).carried.count := by
  obtain ⟨t, hrun, -, -, -, hshown, -, hcount⟩ := Setup.run_within_limits (S := chest true)
    (i := ()) (Nat.le_refl 100)
    (valid_start true 5 0 (by omega) (by omega) (by omega) (by omega))
    [.clone 0, .pickup 1 .left]
  exact ⟨t, hrun, hshown, hcount fun _ => by decide⟩

/-- A clone drag over two slots takes twice the carried stack. -/
theorem Sample.clone_drag_negative :
    (chest true).Valid ⟨True, True, False⟩ (Sample.start 0 64) ∧
      (((chest true).menu ()).run (chest true).containers () 100
        [.quickCraft (.start .clone), .quickCraft (.addSlot 0), .quickCraft (.addSlot 1),
          .quickCraft .finish] (Sample.start 0 64)).map (fun t => (t.menus ()).carried.count) =
        some (-64) :=
  ⟨valid_start true 0 64 (by omega) (by omega) (by omega) (by omega), by decide⟩

end Main

end Steel
