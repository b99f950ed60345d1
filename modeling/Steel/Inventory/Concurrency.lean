import Mathlib.Data.Fintype.Prod
import Steel.Inventory.ClickRuns

/-! # Clicks of several players at once

Players click on menus over shared containers. Their clicks interleave at the points where locks are
released.
-/

namespace Steel

variable {ι Pos κ : Type} (S : Setup ι Pos κ)

namespace Setup

def Private (i : ι) (pos : Pos) : Prop := ∀ j, S.Reaches j pos → j = i

/-- What the players rely on: their own cursor, and the positions that they alone reach. -/
def access (i : ι) : PlayerAccess S i where
  rely w t := t.menus i = w.menus i ∧ ∀ pos, S.Private i pos → t.cells pos = w.cells pos
  guar w t := (∀ pos, ¬ S.Reaches i pos → t.cells pos = w.cells pos) ∧
    ∀ j, j ≠ i → t.menus j = w.menus j
  rely_refl _ := ⟨rfl, fun _ _ => rfl⟩
  rely_trans h h' := ⟨h'.1.trans h.1, fun pos hpos => (h'.2 pos hpos).trans (h.2 pos hpos)⟩
  guar_refl _ := ⟨fun _ _ => rfl, fun _ _ => rfl⟩
  guar_trans h h' := ⟨fun pos hpos => (h'.1 pos hpos).trans (h.1 pos hpos),
    fun j hj => (h'.2 j hj).trans (h.2 j hj)⟩
  menu_eq h := h.1
  guar_of hcells hmenus := ⟨hcells, hmenus⟩

variable {S}

theorem access_rely_of_guar {i j : ι} {w t : World ι Pos κ} (hij : i ≠ j)
    (h : (S.access i).guar w t) : (S.access j).rely w t := by
  refine ⟨h.2 j hij.symm, ?_⟩
  intro pos hprivate
  apply h.1
  intro hreaches
  exact hij (hprivate i hreaches)

/-- A shift-click out of a slot is safe if the slot is out of the others' reach, or if nothing
is released while the targets are filled. -/
def QuickMoveSafe (S : Setup ι Pos κ) (i : ι) (k : ℕ) : Prop :=
  ∀ slot, (S.menu i).slots[k]? = some slot → ∀ route, (S.menu i).routeOf k = some route →
    S.Private i slot.pos ∨
    ∀ range ∈ route.targets, ∀ j ∈ range.walk route.direction, ∀ target,
      (S.menu i).slots[j]? = some target → S.containers.owned target.pos = false

theorem QuickMoveSafe.keepsSource {i : ι} {k : ℕ} (h : S.QuickMoveSafe i k) :
    (S.access i).KeepsSource k := by
  intro slot hslot route hroute range hrange j hj target htarget w t hafter
  obtain hprivate | hunowned := h slot hslot route hroute
  · exact hafter.rely.2 slot.pos hprivate
  · rw [hafter.eq_of_unowned (hunowned range hrange j hj target htarget)]

theorem not_sequential_access [ItemKind κ] (i : ι) (w : World ι Pos κ) :
    ¬ (S.access i).Sequential := by
  intro hseq
  have heq : w.drop .empty = w := hseq w (w.drop .empty) ⟨rfl, fun _ _ => rfl⟩
  have hlength := congrArg (fun w => w.dropped.length) heq
  simp [World.drop] at hlength

end Setup

variable [DecidableEq ι] [DecidableEq Pos] [DecidableEq κ] [ItemKind κ]

def Setup.threads (fuel : ℕ) (clicks : ι → List Click) (w : World ι Pos κ) :
    Threads (World ι Pos κ) ι where
  prog i := .sequence ((clicks i).map ((S.menu i).clicked S.containers i fuel))
  state := w

variable {S} [Fintype ι] [Fintype Pos]

/-- Items are conserved in every interleaving of the players' clicks, when all have returned. -/
theorem Setup.bag_threads_eq {fuel : ℕ} {clicks : ι → List Click} {w : World ι Pos κ}
    (hallows : ∀ i, ∀ click ∈ clicks i, S.Allows .survival i click)
    (hsafe : ∀ i k, .quickMove k ∈ clicks i → S.QuickMoveSafe i k)
    (hw : S.Valid .survival w) (schedule : List ι)
    (hfinished : ∀ i, (((S.threads fuel clicks w).run schedule).prog i).Finished) :
    ((S.threads fuel clicks w).run schedule).state.bag = w.bag := by
  have hclick : ∀ i, ∀ p ∈ (clicks i).map ((S.menu i).clicked S.containers i fuel), ∀ t,
      S.Valid .survival t →
      Spec (S.account .survival) (S.access i).toAccess p (Settled (S.account .survival)) 0 t := by
    intro i p hp t ht
    obtain ⟨click, hmem, rfl⟩ := List.mem_map.mp hp
    have hdoes : (S.access i).Does .survival ((S.menu i).clicked S.containers i fuel click)
        (Clicked S .survival 0) 0 t := by
      apply does_clicked _ (hallows i click hmem) _ ht
      · exact fun hseq => absurd hseq (not_sequential_access i w)
      · rintro k rfl
        exact (hsafe i k hmem).keepsSource
    exact hdoes.mono fun _ _ _ h => ⟨h.hand_eq id id, h.valid⟩
  have htotal := (Threads.total_run (P := S.account .survival)
    (A := fun i => (S.access i).toAccess) (c := S.threads fuel clicks w) hw
    (fun i j s t hij hguar => access_rely_of_guar hij hguar)
    (fun i t _ ht => spec_sequence ht (hclick i)) schedule).2 hfinished
  exact World.bag_eq_of_items_eq htotal

namespace Sample

local instance neZero_two : NeZero 2 := ⟨by decide⟩

/-- Two players, each with an inventory of their own beside a chest with two slots. -/
def shared (slots : Fin 2 → List (Fin 2 ⊕ Fin 2 × Fin 41)) (routes : List Route)
    (hroutes : ∀ i, ∀ route ∈ routes, ∀ target ∈ route.targets,
      target.stop ≤ ((slots i).map slot).length) :
    Setup (Fin 2) (Fin 2 ⊕ Fin 2 × Fin 41) Sample where
  containers := ⟨fun _ => 99, fun pos => pos.isLeft⟩
  menu i :=
    { slots := (slots i).map slot
      routes := routes
      routes_le := hroutes i
      canDragTo := fun _ => true
      canTakeItemForPickAll := fun _ _ => true
      player := ⟨fun k => .inr (i, Fin.ofNat 41 k), 0, false, true⟩ }
  maxStackSize_inventory _ _ := rfl

def oneStone : World (Fin 2) (Fin 2 ⊕ Fin 2 × Fin 41) Sample where
  cells pos := if pos = .inl 0 then ⟨.stone, 1⟩ else .empty
  menus _ := ⟨.empty, none, []⟩
  dropped := []

theorem valid_oneStone (slots : Fin 2 → List (Fin 2 ⊕ Fin 2 × Fin 41)) (routes : List Route)
    (hroutes : ∀ i, ∀ route ∈ routes, ∀ target ∈ route.targets,
      target.stop ≤ ((slots i).map slot).length) :
    (shared slots routes hroutes).Valid .survival oneStone where
  fits pos := by
    have hcount : ∀ pos, 0 ≤ (oneStone.cells pos).count ∧ (oneStone.cells pos).count ≤ 64 := by
      decide
    obtain ⟨hnonneg, hle⟩ := hcount pos
    have hlimit : (oneStone.cells pos).count ≤ 99 := Int.le_trans hle (by omega)
    exact ⟨hnonneg, fun _ => hlimit, fun _ => hle⟩
  menus _ := ⟨.empty, fun _ => by simp [oneStone], by simp [oneStone]⟩

/-- One player shift-clicks the stone, and the other one picks it up. -/
def stoneClicks (i : Fin 2) : List Click := if i = 0 then [.quickMove 0] else [.pickup 0 .left]

/-- The second player comes in after the first release of the first player. -/
def stoneSchedule : List (Fin 2) := 0 :: (List.replicate 10 1 ++ List.replicate 10 0)

/-- A chest that is shift-clicked into the players' own inventories. -/
def plainChest : Setup (Fin 2) (Fin 2 ⊕ Fin 2 × Fin 41) Sample :=
  shared (fun i => [.inl 0, .inl 1, .inr (i, 0)])
    [⟨⟨0, 2⟩, [⟨2, 3⟩], .backward⟩, ⟨⟨2, 3⟩, [⟨0, 2⟩], .forward⟩] (by decide)

/-- A chest whose first slot is shift-clicked into its second. -/
def sortingChest : Setup (Fin 2) (Fin 2 ⊕ Fin 2 × Fin 41) Sample :=
  shared (fun _ => [.inl 0, .inl 1]) [⟨⟨0, 1⟩, [⟨1, 2⟩], .forward⟩] (by decide)

theorem finished_plainChest (i : Fin 2) :
    (((plainChest.threads 100 stoneClicks oneStone).run stoneSchedule).prog i).Finished := by
  match i with
  | 0 => exact ⟨(), rfl⟩
  | 1 => exact ⟨(), rfl⟩

theorem bag_plainChest :
    ((plainChest.threads 100 stoneClicks oneStone).run stoneSchedule).state.bag = oneStone.bag := by
  apply Setup.bag_threads_eq _ _ (valid_oneStone _ _ _) _ finished_plainChest
  · exact fun i click _ => ⟨(fun h => nomatch h), (fun h => nomatch h)⟩
  · intro i k hk
    obtain ⟨rfl, rfl⟩ : i = 0 ∧ k = 0 := by
      unfold stoneClicks at hk
      split_ifs at hk with hi
      · simpa [hi] using hk
      · simp at hk
    rintro slot - route hroute
    obtain rfl := Option.some_inj.mp hroute
    right
    intro range hrange j hj target htarget
    obtain rfl := List.mem_singleton.mp hrange
    obtain rfl := List.mem_singleton.mp (show j ∈ [2] from hj)
    obtain rfl := Option.some_inj.mp htarget
    rfl

/-- The shift-click empties its source although the stone is gone, so that there are two. -/
theorem bag_sortingChest_ne : sortingChest.Valid .survival oneStone ∧
    (∀ i, (((sortingChest.threads 100 stoneClicks oneStone).run stoneSchedule).prog i).Finished) ∧
    ((sortingChest.threads 100 stoneClicks oneStone).run stoneSchedule).state.bag ≠
      oneStone.bag := by
  refine ⟨valid_oneStone _ _ _, ?_, ?_⟩
  · intro i
    match i with
    | 0 => exact ⟨(), rfl⟩
    | 1 => exact ⟨(), rfl⟩
  · intro heq
    have hcount : Multiset.count stone ((sortingChest.threads 100 stoneClicks oneStone).run
        stoneSchedule).state.bag ≠ Multiset.count stone oneStone.bag := by
      decide +kernel
    exact hcount (congrArg _ heq)

end Sample

end Steel
