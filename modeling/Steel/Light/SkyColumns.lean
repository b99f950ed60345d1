import Steel.Light.SkyLight

/-! # Columns of sky light

A block is a source of sky light if its column is open from the top down to it.
-/

namespace Steel.SkyLightEngine

open List LightCacheLayout LightDirectionSet PackedLightQueueEntry Int

variable {S : Type*} (sky : SkyLightEngine S)

def topY : ℤ := sky.layout.range.maxSectionYExclusive * 16 - 1

/-- The block lets all the light from the block above through. -/
def edgeOpen (pos : BlockCoords) : Bool :=
  sky.opensDown (sky.engine.blockState ⟨pos.x, pos.y + 1, pos.z⟩) (sky.engine.blockState pos)

def isSource (pos : BlockCoords) : Bool :=
  (List.range (sky.topY + 1 - pos.y).toNat).all fun i => sky.edgeOpen ⟨pos.x, pos.y + i, pos.z⟩

/-- The light that the inner blocks should have: sources have full light, and the others have the
best that their neighbours give. -/
structure SkyLit (level : BlockCoords → ℕ) : Prop where
  level_le (pos : BlockCoords) : level pos ≤ maxLightLevel
  outside (pos : BlockCoords) : sky.layout.innerBlock pos = false → level pos = 0
  source (pos : BlockCoords) : sky.layout.innerBlock pos = true → sky.isSource pos = true →
    level pos = maxLightLevel
  gathered (pos : BlockCoords) : sky.layout.innerBlock pos = true → sky.isSource pos = false →
    level pos = sky.engine.gathered level pos

def openedEntry (pos : BlockCoords) : FloodEntry BlockCoords LightAxisDirection :=
  ⟨pos, maxLightLevel, directions (.allExcept .positiveY),
    !(sky.blocks.lightOcclusionShape (sky.engine.blockState pos)).isEmpty, false, false⟩

def closedEntry (pos : BlockCoords) : FloodEntry BlockCoords LightAxisDirection :=
  ⟨pos, maxLightLevel, directions (.allExcept .positiveY), false, false, false⟩

variable {sky} {context : SkyLightContext} {state : FloodState BlockCoords LightAxisDirection}
  {level : BlockCoords → ℕ}

theorem opensDown_iff {aboveState currentState : S} : sky.opensDown aboveState currentState = true ↔
      sky.blocks.lightDampening currentState = 0 ∧
        sky.blocks.occludes aboveState currentState .down = false := by
  have hne : sky.blocks.lightDampening currentState ≠ lightBlocked :=
    Nat.ne_of_lt (Nat.lt_succ_of_le (sky.blocks.lightDampening_le currentState))
  unfold opensDown
  rw [LightBlocks.getLightBlockInto_eq]
  cases sky.blocks.occludes aboveState currentState .down with
  | true => simp
  | false => simp [hne]

theorem isSource_iff {pos : BlockCoords} : sky.isSource pos = true ↔
    ∀ y, pos.y ≤ y → y ≤ sky.topY → sky.edgeOpen ⟨pos.x, y, pos.z⟩ = true := by
  simp only [isSource, all_eq_true, mem_range]
  constructor
  · intro h y hle htop
    have hopen := h (y - pos.y).toNat (by omega)
    rwa [show pos.y + ((y - pos.y).toNat : ℤ) = y by omega] at hopen
  · intro h i hi
    exact h _ (by omega) (by omega)

theorem isSource_of_le {x y y' z : ℤ} (h : sky.isSource ⟨x, y, z⟩ = true) (hle : y ≤ y') :
    sky.isSource ⟨x, y', z⟩ = true := by
  rw [isSource_iff] at h ⊢
  exact fun w hw htop => h w (hle.trans hw) htop

section

variable {x y z : ℤ} (hx : blockToSectionCoord x = sky.layout.centerChunk.1)
  (hz : blockToSectionCoord z = sky.layout.centerChunk.2)

include hx hz

theorem innerBlock_column :
    sky.layout.innerBlock ⟨x, y, z⟩ = true ↔ sky.lowestY ≤ y ∧ y ≤ sky.topY := by
  rw [innerBlock_iff]
  simp only [hx, hz]
  unfold lowestY topY LightSectionRange.maxSectionYExclusive blockToSectionCoord
  omega

theorem centerBlock_column : sky.layout.centerBlock ⟨x, y, z⟩ = true := by
  rw [LightCacheLayout.centerBlock, decide_eq_true_iff]
  exact ⟨hx, hz⟩

end

section Column

variable {x z : ℤ} (hx : blockToSectionCoord x = sky.layout.centerChunk.1)
  (hz : blockToSectionCoord z = sky.layout.centerChunk.2)

include hx hz

theorem checkMissingSectionAt_of_ready (h : context.light.Ready sky.layout) (y : ℤ) :
    (sky.checkMissingSectionAt x y z context).toLightContext = context.toLightContext := by
  unfold checkMissingSectionAt
  rw [hx, hz]
  exact checkMissingSection_of_ready h _ _

variable {y : ℤ}

theorem getLightLevelExtruded_of_ready {light : LightLayerEdit} (h : light.Ready sky.layout)
    (hy : sky.lowestY ≤ y) : sky.getLightLevelExtruded light ⟨x, y, z⟩ =
      if y ≤ sky.topY then light.levelAt sky.layout ⟨x, y, z⟩ else maxLightLevel := by
  have hpresent := @LightLayerEdit.hasNonMissingSection_eq sky.layout light ⟨x, y, z⟩
  rw [h.present] at hpresent
  unfold getLightLevelExtruded
  split_ifs with htop
  · have hinner := (innerBlock_column hx hz).2 ⟨hy, htop⟩
    obtain ⟨block, hblock⟩ := exists_cachedBlock_of_innerBlock hinner
    rw [hinner] at hpresent
    simp only [hblock, hpresent, if_true]
    exact (LightLayerEdit.levelAt_eq hblock).symm
  · have hinner : sky.layout.innerBlock ⟨x, y, z⟩ = false := by
      rw [Bool.eq_false_iff, ne_eq, innerBlock_column hx hz]
      exact fun hle => htop hle.2
    have hnone :
        (sky.layout.range.maxSectionYExclusive - (blockToSectionCoord y + 1)).toNat = 0 := by
      unfold topY at htop
      unfold blockToSectionCoord
      omega
    rw [hinner] at hpresent
    simp only [hnone, range_zero, hpresent]
    cases sky.layout.cachedBlock ⟨x, y, z⟩ with
    | none => rfl
    | some block => rfl

theorem room_column (hy : sky.lowestY ≤ y ∧ y ≤ sky.topY) :
    (sky.engine.flood sky.layout.innerBlock).room ⟨x, y, z⟩ = true :=
  @LightEngine.room_of_center S sky.engine ⟨x, y, z⟩ ((innerBlock_column hx hz).2 hy)
    (centerBlock_column hx hz)

theorem exists_queueEntry (hy : sky.lowestY ≤ y ∧ y ≤ sky.topY) (sided : Bool) :
    ∃ entry, sky.queueEntry ⟨x, y, z⟩ maxLightLevel (.allExcept .positiveY)
        (packFlags sided false false) = some entry ∧
      sky.engine.readEntry entry = ⟨⟨x, y, z⟩, maxLightLevel,
        directions (.allExcept .positiveY), sided, false, false⟩ := by
  cases hpacked : sky.layout.encodeBlockPos ⟨x, y, z⟩ with
  | none =>
    have hroom := room_column hx hz hy
    rw [show (sky.engine.flood sky.layout.innerBlock).room ⟨x, y, z⟩ = false from
      encodeBlockPos_eq_none.1 hpacked] at hroom
    cases hroom
  | some packed =>
    refine ⟨_, by rw [queueEntry, hpacked, Option.map_some], ?_⟩
    exact @LightEngine.readEntry_fromParts S sky.engine _ _ _ _ hpacked (Nat.le_refl _)
      (allExcept_lt _) sided false false

/-- What walking down an open column does. -/
structure WalkedDown (sky : SkyLightEngine S) (x z y bottom : ℤ)
    (state : FloodState BlockCoords LightAxisDirection) (context context' : SkyLightContext)
    (opened : List BlockCoords) (entries : List PackedLightQueueEntry) : Prop where
  mem (pos : BlockCoords) : pos ∈ opened ↔ pos.x = x ∧ pos.z = z ∧ bottom < pos.y ∧ pos.y ≤ y
  le : bottom ≤ y
  lowest : sky.lowestY - 1 ≤ bottom
  opens (w : ℤ) : bottom < w → w ≤ y → sky.edgeOpen ⟨x, w, z⟩ = true
  stops : sky.lowestY ≤ bottom → sky.edgeOpen ⟨x, bottom, z⟩ = false
  light : context'.light = context.light
  sees : sky.engine.Sees sky.layout.innerBlock context'.toLightContext
    { state with increases := state.increases ++ opened.map sky.openedEntry }
  read : entries.map sky.engine.readEntry = opened.map sky.openedEntry

omit hx hz in
theorem WalkedDown.stay {context' : SkyLightContext} (hlow : sky.lowestY - 1 ≤ y)
    (hstops : sky.lowestY ≤ y → sky.edgeOpen ⟨x, y, z⟩ = false)
    (hsame : context'.toLightContext = context.toLightContext)
    (hsees : sky.engine.Sees sky.layout.innerBlock context.toLightContext state) :
    WalkedDown sky x z y y state context context' [] [] := by
  constructor
  · intro pos
    simp only [not_mem_nil, false_iff]
    omega
  · exact le_refl y
  · exact hlow
  · intro w hw hw'
    omega
  · exact hstops
  · rw [hsame]
  · rw [hsame]
    simpa using hsees
  · rfl

theorem checkedSection_eq (h : context.light.Ready sky.layout) (y : ℤ) :
    (if y % 16 = 15 then sky.checkMissingSectionAt x y z context else context).toLightContext =
      context.toLightContext := by
  split_ifs
  · exact checkMissingSectionAt_of_ready hx hz h y
  · rfl

variable {delayed : List PackedLightQueueEntry}

theorem propagateDown_walks {fuel : ℕ} {aboveState : S}
    (hfuel : fuel = (y + 1 - sky.lowestY).toNat) (hlow : sky.lowestY - 1 ≤ y) (htop : y ≤ sky.topY)
    (habove : aboveState = sky.engine.blockState ⟨x, y + 1, z⟩)
    (hready : context.light.Ready sky.layout)
    (hsees : sky.engine.Sees sky.layout.innerBlock context.toLightContext state) :
    ∃ context' bottom opened entries, sky.propagateDown x z fuel y aboveState context delayed =
        (context', delayed ++ entries, bottom) ∧
      WalkedDown sky x z y bottom state context context' opened entries := by
  induction fuel generalizing y aboveState context delayed state with
  | zero =>
    refine ⟨context, y, [], [], ?_, .stay hlow (fun hle => ?_) rfl hsees⟩
    · rw [append_nil]
      rfl
    · omega
  | succ fuel ih =>
    have hy : sky.lowestY ≤ y := by omega
    have hinner := (innerBlock_column hx hz).2 ⟨hy, htop⟩
    have hpresent := @LightLayerEdit.hasNonMissingSection_eq sky.layout context.light ⟨x, y, z⟩
    rw [hready.present, hinner] at hpresent
    obtain ⟨block, hblock⟩ := exists_cachedBlock_of_innerBlock hinner
    have hchecked := checkedSection_eq hx hz hready y
    unfold propagateDown
    rw [if_neg (not_lt.2 hy)]
    generalize (if y % 16 = 15 then sky.checkMissingSectionAt x y z context else context) =
      context₁ at hchecked
    have hlight : context₁.light = context.light := congrArg LightContext.light hchecked
    have hedge : sky.opensDown aboveState (sky.engine.blockState ⟨x, y, z⟩) =
        sky.edgeOpen ⟨x, y, z⟩ := by
      rw [habove]
      rfl
    simp only [hedge, hlight, hpresent, hblock, if_true]
    cases hopen : sky.edgeOpen ⟨x, y, z⟩ with
    | false =>
      refine ⟨context₁, y, [], [], ?_, .stay hlow (fun _ => hopen) hchecked hsees⟩
      rw [append_nil]
      rfl
    | true =>
      simp only [Bool.not_true, Bool.false_eq_true, if_false]
      rw [LightEngine.shapeFlags_eq]
      obtain ⟨entry, hentry, hread⟩ := exists_queueEntry hx hz ⟨hy, htop⟩
        (!(sky.engine.blocks.lightOcclusionShape (sky.engine.blockState ⟨x, y, z⟩)).isEmpty)
      rw [hentry]
      have hsees₁ : sky.engine.Sees sky.layout.innerBlock context₁.toLightContext state := by
        rwa [hchecked]
      have hnext := hsees₁.enqueueIncrease hinner (Nat.le_refl maxLightLevel)
        (allExcept_lt .positiveY)
        (!(sky.engine.blocks.lightOcclusionShape (sky.engine.blockState ⟨x, y, z⟩)).isEmpty)
        false false
      rw [Flood.enqueueIncrease_of_room (room_column hx hz ⟨hy, htop⟩)] at hnext
      obtain ⟨context', bottom, opened, entries, hresult, hwalk⟩ : ∃ context' bottom opened entries,
          sky.propagateDown x z fuel (y - 1) (sky.engine.blockState ⟨x, y, z⟩)
            (sky.enqueueIncrease ⟨x, y, z⟩ maxLightLevel (.allExcept .positiveY)
              (packFlags (!(sky.engine.blocks.lightOcclusionShape
                (sky.engine.blockState ⟨x, y, z⟩)).isEmpty) false false) context₁)
            (delayed ++ [entry]) = (context', delayed ++ [entry] ++ entries, bottom) ∧
          WalkedDown sky x z (y - 1) bottom { state with
            increases := state.increases ++ [sky.openedEntry ⟨x, y, z⟩] } context₁ context' opened
            entries := by
        have hready₂ : (sky.enqueueIncrease ⟨x, y, z⟩ maxLightLevel (.allExcept .positiveY)
            (packFlags (!(sky.engine.blocks.lightOcclusionShape
              (sky.engine.blockState ⟨x, y, z⟩)).isEmpty) false false) context₁).light =
            context₁.light := LightEngine.enqueueIncrease_light
        obtain ⟨context', bottom, opened, entries, hresult, hwalk⟩ :=
          ih (y := y - 1) (by omega) (by omega)
          (by omega) (by rw [sub_add_cancel]) (by rwa [hready₂, hlight]) hnext
        exact ⟨context', bottom, opened, entries, hresult,
          { hwalk with light := hwalk.light.trans hready₂ }⟩
      refine ⟨context', bottom, ⟨x, y, z⟩ :: opened, entry :: entries, ?_, ?_⟩
      · rw [← singleton_append (l := entries), ← append_assoc]
        exact hresult
      · constructor
        · intro pos
          have hle := hwalk.le
          rw [mem_cons, hwalk.mem]
          constructor
          · rintro (rfl | ⟨hpx, hpz, hlt, hpy⟩)
            · exact ⟨rfl, rfl, by simp only; omega, le_refl y⟩
            · exact ⟨hpx, hpz, hlt, by omega⟩
          · rintro ⟨hpx, hpz, hlt, hpy⟩
            by_cases hpos : pos.y = y
            · exact .inl (BlockCoords.ext hpx hpos hpz)
            · exact .inr ⟨hpx, hpz, hlt, by omega⟩
        · have hle := hwalk.le
          omega
        · exact hwalk.lowest
        · intro w hw hle
          by_cases hwy : w = y
          · rw [hwy]
            exact hopen
          · exact hwalk.opens w hw (by omega)
        · exact hwalk.stops
        · exact hwalk.light.trans hlight
        · have hlast := hwalk.sees
          simpa using hlast
        · rw [map_cons, map_cons, hread, hwalk.read]
          rfl

/-- What walking down a lit column does. -/
structure Removed (sky : SkyLightEngine S) (x z y : ℤ)
    (state : FloodState BlockCoords LightAxisDirection) (context context' : SkyLightContext)
    (closed : List BlockCoords) (entries : List PackedLightQueueEntry) : Prop where
  mem (pos : BlockCoords) : pos ∈ closed ↔ pos.x = x ∧ pos.z = z ∧ sky.lowestY ≤ pos.y ∧ pos.y ≤ y ∧
    ∀ w, pos.y ≤ w → w ≤ y → context.light.levelAt sky.layout ⟨x, w, z⟩ = maxLightLevel
  light : context'.light = context.light
  sees : sky.engine.Sees sky.layout.innerBlock context'.toLightContext
    { state with decreases := state.decreases ++ closed.map closedEntry }
  read : entries.map sky.engine.readEntry = closed.map closedEntry

omit hx hz in
theorem Removed.stay {context' : SkyLightContext}
    (hstops : sky.lowestY ≤ y → context.light.levelAt sky.layout ⟨x, y, z⟩ ≠ maxLightLevel)
    (hsame : context'.toLightContext = context.toLightContext)
    (hsees : sky.engine.Sees sky.layout.innerBlock context.toLightContext state) :
    Removed sky x z y state context context' [] [] := by
  constructor
  · intro pos
    simp only [not_mem_nil, false_iff]
    rintro ⟨_, _, hlow, hle, hlit⟩
    exact hstops (hlow.trans hle) (hlit y hle (le_refl y))
  · rw [hsame]
  · rw [hsame]
    simpa using hsees
  · rfl

theorem removeDown_walks {fuel : ℕ}
    (hfuel : fuel = (y + 1 - sky.lowestY).toNat) (htop : y ≤ sky.topY)
    (hready : context.light.Ready sky.layout)
    (hsees : sky.engine.Sees sky.layout.innerBlock context.toLightContext state) :
    ∃ context' closed entries,
      sky.removeDown x z fuel y context delayed = (context', delayed ++ entries) ∧
      Removed sky x z y state context context' closed entries := by
  induction fuel generalizing y context delayed state with
  | zero =>
    refine ⟨context, [], [], ?_, .stay (fun hle => ?_) rfl hsees⟩
    · rw [append_nil]
      rfl
    · omega
  | succ fuel ih =>
    have hy : sky.lowestY ≤ y := by omega
    have hinner := (innerBlock_column hx hz).2 ⟨hy, htop⟩
    have hpresent := @LightLayerEdit.hasNonMissingSection_eq sky.layout context.light ⟨x, y, z⟩
    rw [hready.present, hinner] at hpresent
    obtain ⟨block, hblock⟩ := exists_cachedBlock_of_innerBlock hinner
    have hlevel : context.light.levelAt sky.layout ⟨x, y, z⟩ = context.light.get block :=
      LightLayerEdit.levelAt_eq hblock
    have hchecked := checkedSection_eq hx hz hready y
    unfold removeDown
    rw [if_neg (not_lt.2 hy)]
    generalize (if y % 16 = 15 then sky.checkMissingSectionAt x y z context else context) =
      context₁ at hchecked
    have hlight : context₁.light = context.light := congrArg LightContext.light hchecked
    simp only [hlight, hpresent, hblock, Bool.not_true, Bool.false_eq_true, if_false]
    by_cases hlit : context.light.get block = maxLightLevel
    · rw [if_neg (not_not.2 hlit)]
      obtain ⟨entry, hentry, hread⟩ := exists_queueEntry hx hz ⟨hy, htop⟩ false
      have hflags : packFlags false false false = LightQueueFlags.empty := rfl
      rw [hflags] at hentry
      rw [hentry]
      have hsees₁ : sky.engine.Sees sky.layout.innerBlock context₁.toLightContext state := by
        rwa [hchecked]
      have hnext := hsees₁.enqueueDecrease hinner (Nat.le_refl maxLightLevel)
        (allExcept_lt .positiveY) false
      rw [Flood.enqueueDecrease_of_room (room_column hx hz ⟨hy, htop⟩), hflags] at hnext
      have hlight₂ : (sky.enqueueDecrease ⟨x, y, z⟩ maxLightLevel (.allExcept .positiveY) .empty
          context₁).light = context.light :=
        LightEngine.enqueueDecrease_light.trans hlight
      have hready₂ : (sky.enqueueDecrease ⟨x, y, z⟩ maxLightLevel (.allExcept .positiveY) .empty
          context₁).light.Ready sky.layout := by
        rwa [hlight₂]
      obtain ⟨context', closed, entries, hresult, hremoved⟩ := ih (y := y - 1) (by omega) (by omega)
        hready₂ hnext
      refine ⟨context', ⟨x, y, z⟩ :: closed, entry :: entries, ?_, ?_⟩
      · rw [← singleton_append (l := entries), ← append_assoc]
        exact hresult
      · constructor
        · intro pos
          rw [mem_cons, hremoved.mem, hlight₂]
          constructor
          · rintro (rfl | ⟨hpx, hpz, hlow, hpy, hall⟩)
            · refine ⟨rfl, rfl, hy, le_refl y, fun w hw hle => ?_⟩
              rw [show w = y by simp only at hw; omega]
              exact hlevel.trans hlit
            · refine ⟨hpx, hpz, hlow, by omega, fun w hw hle => ?_⟩
              by_cases hwy : w = y
              · rw [hwy]
                exact hlevel.trans hlit
              · exact hall w hw (by omega)
          · rintro ⟨hpx, hpz, hlow, hpy, hall⟩
            by_cases hpos : pos.y = y
            · exact .inl (BlockCoords.ext hpx hpos hpz)
            · exact .inr ⟨hpx, hpz, hlow, by omega, fun w hw hle => hall w hw (by omega)⟩
        · exact hremoved.light.trans hlight₂
        · have hlast := hremoved.sees
          simpa [closedEntry] using hlast
        · rw [map_cons, map_cons, hread, hremoved.read]
          rfl
    · rw [if_pos hlit]
      refine ⟨context₁, [], [], ?_, .stay (fun _ => ?_) hchecked hsees⟩
      · rw [append_nil]
      · rwa [hlevel]

end Column

end Steel.SkyLightEngine
