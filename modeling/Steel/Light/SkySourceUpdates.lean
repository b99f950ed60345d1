import Steel.Light.SkySources

/-! # Updates of the sky-light sources

An update after the change of a block looks at the edges above and below it, and searches further
down if one of them has been the surface.
-/

namespace Steel

open Bool

namespace ChunkSkyLightSources

variable {blocks : SkyBlocks} {sources : ChunkSkyLightSources} {sections : List ChunkSection}
  {x z : Fin 16}

def stateAt (blocks : SkyBlocks) (minY : ℤ) (sections : List ChunkSection) (x : Fin 16) (y : ℤ)
    (z : Fin 16) : BlockStateId :=
  if minY ≤ y ∧ y < minY + (16 * sections.length : ℕ) then
    cell blocks sections x z (y - minY).toNat
  else blocks.air

theorem cell_of_le {offset : ℕ} (h : 16 * sections.length ≤ offset) :
    cell blocks sections x z offset = blocks.air := by
  rw [cell, List.getElem?_eq_none (by omega)]

theorem stateAt_offset (minY : ℤ) (offset : ℕ) :
    stateAt blocks minY sections x (minY + offset) z = cell blocks sections x z offset := by
  rw [stateAt]
  split_ifs with h
  · rw [add_sub_cancel_left, Int.toNat_natCast]
  · rw [cell_of_le (by omega)]

theorem isEdgeOccluded_stateAt (minY : ℤ) (offset : ℕ) :
    blocks.isEdgeOccluded (cell blocks sections x z offset)
        (stateAt blocks (minY + 1) sections x (minY + offset) z) =
      occludedEdge blocks sections x z offset := by
  cases offset with
  | zero => rw [occludedEdge, stateAt, if_neg (by omega)]
  | succ offset =>
    have hy : minY + ((offset + 1 : ℕ) : ℤ) = minY + 1 + (offset : ℕ) := by
      push_cast
      ring
    rw [occludedEdge, hy, stateAt_offset]

theorem checkedI32_eq_some {value : ℤ} (hlow : -2 ^ 31 ≤ value) (hhigh : value < 2 ^ 31) :
    checkedI32 value = some value := if_pos ⟨hlow, hhigh⟩

/-- The world fits into 32 bits. -/
structure Fits (sources : ChunkSkyLightSources) (sections : List ChunkSection) : Prop where
  low : -2 ^ 31 ≤ sources.minY
  high : sources.minY + 1 + (16 * sections.length : ℕ) < 2 ^ 31

theorem searchBelow_eq (hfits : Fits sources sections) (m : ℕ) :
    ∀ {topState : BlockStateId}, m ≤ 16 * sections.length →
      (∀ k, m = k + 1 → topState = cell blocks sections x z k) →
      searchBelow blocks sources x z (stateAt blocks (sources.minY + 1) sections) m
        (sources.minY + m) topState (sources.minY + m - 1) =
        sources.minY + (surface (occludedEdge blocks sections x z) m : ℕ) := by
  induction m with
  | zero =>
    intro topState _ _
    simp [searchBelow, surface]
  | succ m ih =>
    intro topState hm htop
    have hbottomY : sources.minY + ((m + 1 : ℕ) : ℤ) - 1 = sources.minY + m := by
      push_cast
      ring
    have hedge : blocks.isEdgeOccluded topState
        (stateAt blocks (sources.minY + 1) sections x (sources.minY + m) z) =
        occludedEdge blocks sections x z m := by
      rw [htop m rfl, isEdgeOccluded_stateAt]
    rw [searchBelow, hbottomY, if_pos (by omega)]
    dsimp only
    rw [hedge, surface]
    by_cases hoccluded : occludedEdge blocks sections x z m = true
    · rw [if_pos hoccluded, if_pos hoccluded]
    · rw [if_neg hoccluded, if_neg hoccluded]
      cases m with
      | zero =>
        rcases hchecked : checkedI32 (sources.minY + ((0 : ℕ) : ℤ) - 1) with _ | next
        · simp [surface]
        · simp [searchBelow, surface]
      | succ k =>
        have hlow := hfits.low
        have hhigh := hfits.high
        rw [checkedI32_eq_some (by omega) (by omega)]
        refine ih (by omega) fun k' hk' => ?_
        cases hk'
        rw [show sources.minY + ((k + 1 : ℕ) : ℤ) = sources.minY + 1 + (k : ℕ) by push_cast; ring,
          stateAt_offset]

theorem findLowestSourceBelow_eq (hfits : Fits sources sections) {m : ℕ}
    (hm : m ≤ 16 * sections.length) {startY : ℤ} (hstart : startY = sources.minY + m)
    {startState : BlockStateId}
    (hstate : ∀ k, m = k + 1 → startState = cell blocks sections x z k) :
    findLowestSourceBelow blocks sources x z (stateAt blocks (sources.minY + 1) sections) startY
      startState = sources.minY + (surface (occludedEdge blocks sections x z) m : ℕ) := by
  subst hstart
  have hlow := hfits.low
  have hhigh := hfits.high
  rw [findLowestSourceBelow, add_sub_cancel_left, Int.toNat_natCast]
  cases m with
  | zero =>
    rcases hchecked : checkedI32 (sources.minY + ((0 : ℕ) : ℤ) - 1) with _ | next
    · simp [surface]
    · simp [searchBelow, surface]
  | succ k =>
    rw [checkedI32_eq_some (by omega) (by omega)]
    exact searchBelow_eq hfits (k + 1) hm hstate

theorem eq_of_checkedI32 {value result : ℤ} (h : checkedI32 value = some result) :
    value = result := by
  rw [checkedI32, Option.ite_none_right_eq_some] at h
  exact Option.some.inj h.2

section

variable (stateAt : Fin 16 → ℤ → Fin 16 → BlockStateId)

theorem searchBelow_le (fuel : ℕ) :
    ∀ (topY : ℤ) (topState : BlockStateId) (bottomY : ℤ), bottomY ≤ topY →
      searchBelow blocks sources x z stateAt fuel topY topState bottomY ≤
        max topY sources.minY := by
  induction fuel with
  | zero => exact fun topY topState bottomY _ => le_max_right _ _
  | succ fuel ih =>
    intro topY topState bottomY hle
    rw [searchBelow]
    by_cases hbottom : bottomY ≥ sources.minY
    · rw [if_pos hbottom]
      dsimp only
      by_cases hoccluded : blocks.isEdgeOccluded topState (stateAt x bottomY z) = true
      · rw [if_pos hoccluded]
        exact le_max_left _ _
      · rw [if_neg hoccluded]
        rcases hnext : checkedI32 (bottomY - 1) with _ | next
        · exact le_max_right _ _
        · have hnext' := eq_of_checkedI32 hnext
          exact (ih bottomY _ next (by omega)).trans (max_le_max_right _ hle)
    · rw [if_neg hbottom]
      exact le_max_right _ _

theorem findLowestSourceBelow_le (startY : ℤ) (startState : BlockStateId) :
    findLowestSourceBelow blocks sources x z stateAt startY startState ≤
      max startY sources.minY := by
  rw [findLowestSourceBelow]
  rcases hbottom : checkedI32 (startY - 1) with _ | bottomY
  · exact le_max_right _ _
  · have hbottom' := eq_of_checkedI32 hbottom
    exact searchBelow_le _ _ _ _ _ (by omega)

variable {oldTopEdgeY checkedEdgeY : ℤ} {topState bottomState : BlockStateId}

theorem updateEdge_of_false {stateAt : Fin 16 → ℤ → Fin 16 → BlockStateId} {bottomY : ℤ}
    (h : (updateEdge blocks sources x z stateAt oldTopEdgeY checkedEdgeY topState bottomY
      bottomState).1 = false) :
    (updateEdge blocks sources x z stateAt oldTopEdgeY checkedEdgeY topState bottomY
      bottomState).2 = sources := by
  unfold updateEdge at h ⊢
  split_ifs at h ⊢ <;> rfl

/-- The edge above the changed block is looked at first, and then the one below it. -/
theorem update_eq (y : ℤ) : update blocks sources x z stateAt y = match checkedI32 (y + 1) with
      | none => (false, sources)
      | some upperEdgeY =>
        if upperEdgeY < sources.get (index x z) then (false, sources)
        else if (updateEdge blocks sources x z stateAt (sources.get (index x z)) upperEdgeY
            (stateAt x upperEdgeY z) y (stateAt x y z)).1 = true then
          updateEdge blocks sources x z stateAt (sources.get (index x z)) upperEdgeY
            (stateAt x upperEdgeY z) y (stateAt x y z)
        else
          match checkedI32 (y - 1) with
          | none => (false, sources)
          | some bottomY =>
            updateEdge blocks sources x z stateAt (sources.get (index x z)) y (stateAt x y z)
              bottomY (stateAt x bottomY z) := by
  rw [update]
  rcases checkedI32 (y + 1) with _ | upperEdgeY
  · rfl
  · dsimp only
    split_ifs with hlow hchanged
    · rfl
    · rw [← hchanged]
    · have hsame := updateEdge_of_false (eq_false_of_not_eq_true hchanged)
      rcases checkedI32 (y - 1) with _ | bottomY
      · dsimp only
        rw [hsame]
      · dsimp only
        rw [hsame]

theorem update_changed {y : ℤ} (hy : sources.minY < y) :
    (update blocks sources x z stateAt y).1 = true ↔
      (update blocks sources x z stateAt y).2 ≠ sources := by
  have hset {value : ℤ} (hne : value ≠ sources.get (index x z)) :
      sources.set (index x z) value ≠ sources := by
    intro heq
    have hvalue := congrFun (congrArg heightmap heq) (index x z)
    rw [set] at hvalue
    dsimp only at hvalue
    rw [Function.update_self] at hvalue
    exact hne hvalue
  have hedge {checkedEdgeY bottomY : ℤ} (hchecked : sources.minY < checkedEdgeY)
      (hbottom : bottomY < checkedEdgeY) (topState bottomState : BlockStateId) :
      (updateEdge blocks sources x z stateAt (sources.get (index x z)) checkedEdgeY topState bottomY
          bottomState).1 = true ↔
        (updateEdge blocks sources x z stateAt (sources.get (index x z)) checkedEdgeY topState
          bottomY bottomState).2 ≠ sources := by
    have hle : findLowestSourceBelow blocks sources x z stateAt bottomY bottomState ≤
        max bottomY sources.minY := findLowestSourceBelow_le stateAt bottomY bottomState
    rw [updateEdge]
    split_ifs with hoccluded habove hat
    · exact iff_of_true rfl (hset (by omega))
    · simp
    · refine iff_of_true rfl (hset (ne_of_lt ?_))
      rw [← hat]
      exact lt_of_le_of_lt hle (max_lt hbottom hchecked)
    · simp
  rw [update_eq]
  rcases hupper : checkedI32 (y + 1) with _ | upperEdgeY
  · simp
  · have hupper' := eq_of_checkedI32 hupper
    dsimp only
    split_ifs with hlow hchanged
    · simp
    · exact hedge (by omega) (by omega) _ _
    · rcases hbottom : checkedI32 (y - 1) with _ | bottomY
      · simp
      · have hbottom' := eq_of_checkedI32 hbottom
        exact hedge hy (by omega) _ _

theorem set_get (column : Fin 256) : sources.set column (sources.get column) = sources := by
  rw [set, get, Function.update_eq_self]

theorem updateEdge_of_lt (hlt : checkedEdgeY < oldTopEdgeY) (topState : BlockStateId) (bottomY : ℤ)
    (bottomState : BlockStateId) :
    updateEdge blocks sources x z stateAt oldTopEdgeY checkedEdgeY topState bottomY bottomState =
      (false, sources) := by
  rw [updateEdge, if_neg hlt.not_gt, if_neg hlt.ne]
  split_ifs <;> rfl

theorem updateEdge_of_clear
    (hne : checkedEdgeY ≠ oldTopEdgeY) (hclear : blocks.isEdgeOccluded topState bottomState = false)
    (bottomY : ℤ) :
    updateEdge blocks sources x z stateAt oldTopEdgeY checkedEdgeY topState bottomY bottomState =
      (false, sources) := by
  rw [updateEdge, hclear, if_neg Bool.false_ne_true, if_neg hne]

end

/-- The highest edge of a column that is occluded now, or has been the surface. -/
theorem updateEdge_spec (hfits : Fits sources sections) {k h : ℕ} (hk : k ≤ 16 * sections.length)
    (hle : h ≤ k + 1) (hget : sources.get (index x z) = sources.minY + h)
    (habove : ∀ i, k < i → i < 16 * sections.length + 1 →
      occludedEdge blocks sections x z i = false) {bottomY : ℤ}
    (hchecked : checkedEdgeY = sources.minY + (k + 1 : ℕ)) (hbottom : bottomY = sources.minY + k)
    (hedge : blocks.isEdgeOccluded topState bottomState = occludedEdge blocks sections x z k)
    (hstate : ∀ j, k = j + 1 → bottomState = cell blocks sections x z j)
    (htop : occludedEdge blocks sections x z k = true ∨ h = k + 1) :
    ∃ h' : ℕ, (updateEdge blocks sources x z (stateAt blocks (sources.minY + 1) sections)
        (sources.get (index x z)) checkedEdgeY topState bottomY bottomState).2 =
          sources.set (index x z) (sources.minY + h') ∧
      IsSurface (occludedEdge blocks sections x z) (16 * sections.length + 1) h' := by
  rw [updateEdge, hedge]
  by_cases hoccluded : occludedEdge blocks sections x z k = true
  · rw [if_pos hoccluded]
    refine ⟨k + 1, ?_, .of_top (Nat.lt_succ_of_le hk) hoccluded habove⟩
    split_ifs with hgt
    · rw [hchecked]
    · obtain rfl : h = k + 1 := by omega
      rw [← hget, set_get]
  · rw [if_neg hoccluded, if_pos (by rw [hget, hchecked, htop.resolve_left hoccluded]),
      findLowestSourceBelow_eq hfits hk hbottom hstate]
    refine ⟨_, rfl, (isSurface_surface _ k).of_shorter (by omega) fun i hi hlt => ?_⟩
    rcases Nat.eq_or_lt_of_le hi with rfl | hi
    · exact eq_false_of_not_eq_true hoccluded
    · exact habove i hi hlt

/-- The update after a change of the block between two edges stores the new surface. -/
theorem update_spec (hfits : Fits sources sections) {old : ℕ → Bool} {offset h : ℕ}
    (hoffset : offset < 16 * sections.length)
    (hget : sources.get (index x z) = sources.minY + h)
    (hs : IsSurface old (16 * sections.length + 1) h)
    (heq : ∀ i, i ≠ offset → i ≠ offset + 1 → old i = occludedEdge blocks sections x z i) :
    ∃ h' : ℕ, (update blocks sources x z (stateAt blocks (sources.minY + 1) sections)
        (sources.minY + 1 + offset)).2 = sources.set (index x z) (sources.minY + h') ∧
      IsSurface (occludedEdge blocks sections x z) (16 * sections.length + 1) h' := by
  have hlow := hfits.low
  have hhigh := hfits.high
  have hself : sources = sources.set (index x z) (sources.minY + h) := by
    rw [← hget, set_get]
  have hupperY : sources.minY + 1 + (offset : ℤ) + 1 = sources.minY + 1 + (offset + 1 : ℕ) := by
    push_cast
    ring
  have hstate (i : ℕ) : stateAt blocks (sources.minY + 1) sections x (sources.minY + 1 + i) z =
      cell blocks sections x z i := stateAt_offset _ _
  rw [update_eq, checkedI32_eq_some (by omega) (by omega)]
  dsimp only
  rw [hupperY, hstate, hstate]
  by_cases hbelow : sources.minY + 1 + (offset + 1 : ℕ) < sources.get (index x z)
  · rw [if_pos hbelow]
    exact ⟨h, hself, hs.congr_above fun i hle _ => heq i (by omega) (by omega)⟩
  rw [if_neg hbelow, checkedI32_eq_some (by omega) (by omega)]
  have hle : h ≤ offset + 2 := by omega
  have habove (i : ℕ) (hi : offset + 1 < i) (hlt : i < 16 * sections.length + 1) :
      occludedEdge blocks sections x z i = false := by
    rw [← heq i (by omega) (by omega)]
    exact hs.above i (by omega) hlt
  have hupperEdgeY : sources.minY + 1 + (offset + 1 : ℕ) = sources.minY + (offset + 1 + 1 : ℕ) := by
    push_cast
    ring
  have hlowerEdgeY : sources.minY + 1 + (offset : ℤ) = sources.minY + (offset + 1 : ℕ) := by
    push_cast
    ring
  by_cases hupperEdge : occludedEdge blocks sections x z (offset + 1) = true ∨ h = offset + 1 + 1
  · obtain ⟨h', hset, hs'⟩ := updateEdge_spec hfits (by omega) hle hget habove hupperEdgeY
      hlowerEdgeY rfl (fun j hj => by cases hj; rfl) hupperEdge
    split_ifs with hchanged
    · exact ⟨h', hset, hs'⟩
    · have hsame := updateEdge_of_false (eq_false_of_not_eq_true hchanged)
      have htop : h = offset + 1 + 1 := by
        by_contra hne
        refine hchanged ?_
        have hoccluded : blocks.isEdgeOccluded (cell blocks sections x z (offset + 1))
          (cell blocks sections x z offset) = true := hupperEdge.resolve_right hne
        rw [updateEdge, if_pos hoccluded, if_pos (by omega)]
      dsimp only
      rw [updateEdge_of_lt _ (by omega)]
      exact ⟨h', hsame.symm.trans hset, hs'⟩
  · obtain ⟨hclear, hne⟩ := not_or.1 hupperEdge
    replace hclear := Bool.eq_false_of_not_eq_true hclear
    rw [updateEdge_of_clear _ (by omega) hclear, if_neg Bool.false_ne_true]
    dsimp only
    have habove' (i : ℕ) (hi : offset < i) (hlt : i < 16 * sections.length + 1) :
        occludedEdge blocks sections x z i = false := by
      rcases Nat.eq_or_lt_of_le hi with rfl | hi
      · exact hclear
      · exact habove i hi hlt
    have hedge : blocks.isEdgeOccluded (cell blocks sections x z offset)
        (stateAt blocks (sources.minY + 1) sections x (sources.minY + 1 + offset - 1) z) =
        occludedEdge blocks sections x z offset := by
      rw [show sources.minY + 1 + (offset : ℤ) - 1 = sources.minY + offset by ring]
      exact isEdgeOccluded_stateAt _ _
    by_cases hlowerEdge : occludedEdge blocks sections x z offset = true ∨ h = offset + 1
    · refine updateEdge_spec hfits (by omega) (by omega) hget habove' hlowerEdgeY (by ring) hedge
        ?_ hlowerEdge
      rintro j rfl
      rw [show sources.minY + 1 + ((j + 1 : ℕ) : ℤ) - 1 = sources.minY + 1 + j by push_cast; ring,
        stateAt_offset]
    · obtain ⟨hclear', hne'⟩ := not_or.1 hlowerEdge
      replace hclear' := eq_false_of_not_eq_true hclear'
      rw [updateEdge_of_clear _ (by omega) (hedge.trans hclear')]
      refine ⟨h, hself, hs.le, fun i hi hlt => ?_, fun i hi => ?_⟩
      · by_cases hi' : i = offset
        · rw [hi']
          exact hclear'
        · rcases Nat.lt_or_gt_of_ne hi' with hi' | hi'
          · rw [← heq i (by omega) (by omega)]
            exact hs.above i hi hlt
          · exact habove' i hi' hlt
      · rw [← heq i (by omega) (by omega)]
        exact hs.below i hi

end ChunkSkyLightSources

end Steel
