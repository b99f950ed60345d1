import Steel.Lib.FloodRuns
import Steel.Light.LightBlock
import Steel.Light.LightEdit
import Steel.Light.LightQueue

/-! # The light engine

Light of one layer is taken away and spread with two queues of packed entries.
-/

namespace Steel

open PackedLightQueueEntry LightDirectionSet LightCacheLayout List LightLayerEdit LightAxisDirection
open LightQueueFlags (empty recheckLevel writeLevel)

open PackedLightQueueEntry LightBlocks Nat

structure LightEngine (S : Type*) where
  blocks : LightBlocks S
  layout : LightCacheLayout
  sections : LightSectionReadCache S
  emittedLight : S → ℕ
  emittedLight_le (state : S) : emittedLight state ≤ maxLightLevel

/-- The light of a layer and the two queues. The positions for which a queue had no room are kept
apart. -/
structure LightContext where
  light : LightLayerEdit
  increase : List PackedLightQueueEntry
  decrease : List PackedLightQueueEntry
  refused : List BlockCoords

def LightContext.new (light : LightLayerEdit) : LightContext := ⟨light, [], [], []⟩

def LightContext.setLevel (context : LightContext) (block : CachedLightBlock) (level : ℕ) :
    LightContext :=
  { context with light := context.light.set block level }

namespace LightEngine

variable {S : Type*} (engine : LightEngine S)

/-- The block at a position, air if it is outside the window. -/
def blockState (pos : BlockCoords) : S :=
  match engine.layout.cachedBlock pos with
  | none => engine.blocks.air
  | some block => engine.sections.getBlockState engine.blocks.air block

def getBlockState (block : CachedLightBlock) : S :=
  engine.sections.getBlockState engine.blocks.air block

def shapeFlags (state : S) : LightQueueFlags :=
  if (engine.blocks.lightOcclusionShape state).isEmpty then .empty
  else empty ||| .hasSidedTransparentBlocks

/-- `target_level`, and `target_level_saturating` -/
def targetLevel (propagatedLevel : ℕ) (sourceState : Option S) (targetState : S)
    (direction : Direction) (saturating : Bool) : Option (ℕ × LightQueueFlags) :=
  let opacity := engine.blocks.getLightBlockInto (sourceState.getD engine.blocks.air) targetState
    direction (engine.blocks.getLightOpacity targetState)
  if opacity = lightBlocked then none
  else if saturating then some (propagatedLevel - opacity, engine.shapeFlags targetState)
  else if propagatedLevel ≤ opacity then none
  else some (propagatedLevel - opacity, engine.shapeFlags targetState)

def enqueueIncrease (pos : BlockCoords) (level : ℕ) (directions : LightDirectionSet)
    (flags : LightQueueFlags) (context : LightContext) : LightContext :=
  match engine.layout.encodeBlockPos pos with
  | none => { context with refused := context.refused ++ [pos] }
  | some packed =>
    { context with
      increase := context.increase ++
        [fromParts packed level directions flags] }

def enqueueDecrease (pos : BlockCoords) (level : ℕ) (directions : LightDirectionSet)
    (flags : LightQueueFlags) (context : LightContext) : LightContext :=
  match engine.layout.encodeBlockPos pos with
  | none => { context with refused := context.refused ++ [pos] }
  | some packed =>
    { context with
      decrease := context.decrease ++
        [fromParts packed level directions flags] }

/-- Gives a block that emits light its own level back later. -/
def enqueueEmitted (pos : BlockCoords) (state : S) (flags : LightQueueFlags)
    (context : LightContext) : LightContext :=
  if engine.emittedLight state = 0 then context
  else engine.enqueueIncrease pos (engine.emittedLight state) .all (flags ||| .writeLevel) context

/-- The block that an entry looks through, if its shape counts. -/
def sourceState (entry : PackedLightQueueEntry) (block : CachedLightBlock) : Option S :=
  if entry.hasSidedTransparentBlocks then some (engine.getBlockState block) else none

/-- The body of the loop over directions in `perform_light_increase`. -/
def increaseNeighbor (entry : PackedLightQueueEntry) (source : CachedLightBlock)
    (context : LightContext) (direction : LightAxisDirection) : LightContext :=
  match engine.layout.cachedBlock (source.blockPos.relative direction) with
  | none => context
  | some neighbor =>
    if !context.light.hasNonMissing neighbor then context
    else if entry.level - 1 ≤ context.light.get neighbor then context
    else
      match engine.targetLevel entry.level (engine.sourceState entry source)
        (engine.getBlockState neighbor) direction.direction false with
      | none => context
      | some (target, flags) =>
        if target ≤ context.light.get neighbor then context
        else if 1 < target then
          engine.enqueueIncrease (source.blockPos.relative direction) target
            (.allExceptOpposite direction) flags (context.setLevel neighbor target)
        else context.setLevel neighbor target

/-- The body of the loop over directions in `perform_light_decrease`. -/
def decreaseNeighbor (entry : PackedLightQueueEntry) (source : CachedLightBlock)
    (context : LightContext) (direction : LightAxisDirection) : LightContext :=
  match engine.layout.cachedBlock (source.blockPos.relative direction) with
  | none => context
  | some neighbor =>
    if !context.light.hasNonMissing neighbor then context
    else if context.light.get neighbor = 0 then context
    else
      match engine.targetLevel entry.level (engine.sourceState entry source)
        (engine.getBlockState neighbor) direction.direction true with
      | none => context
      | some (target, flags) =>
        if target < context.light.get neighbor then
          engine.enqueueIncrease (source.blockPos.relative direction)
            (context.light.get neighbor) .all (flags ||| .recheckLevel) context
        else
          let context := (engine.enqueueEmitted (source.blockPos.relative direction)
            (engine.getBlockState neighbor) flags context).setLevel neighbor 0
          if 0 < target then
            engine.enqueueDecrease (source.blockPos.relative direction) target
              (.allExceptOpposite direction) flags context
          else context

/-- One pass of the loop of `perform_light_increase`. -/
def stepIncrease (context : LightContext) : Option LightContext :=
  match context.increase with
  | [] => none
  | entry :: rest =>
    match engine.layout.cachedBlockFromPacked entry.blockPos with
    | none => some { context with increase := rest }
    | some source =>
      if entry.shouldRecheckLevel && context.light.get source != entry.level then
        some { context with increase := rest }
      else
        some (entry.directions.directions.foldl (engine.increaseNeighbor entry source)
          (if !entry.shouldRecheckLevel && entry.shouldWriteLevel then
            LightContext.setLevel { context with increase := rest } source entry.level
          else { context with increase := rest }))

/-- One pass of the loop of `perform_light_decrease`. -/
def stepDecrease (context : LightContext) : Option LightContext :=
  match context.decrease with
  | [] => none
  | entry :: rest =>
    match engine.layout.cachedBlockFromPacked entry.blockPos with
    | none => some { context with decrease := rest }
    | some source =>
      some (entry.directions.directions.foldl (engine.decreaseNeighbor entry source)
        { context with decrease := rest })

def performLightIncrease (fuel : ℕ) (context : LightContext) : Option LightContext :=
  loop engine.stepIncrease fuel context

def performLightDecrease (fuel : ℕ) (context : LightContext) : Option LightContext :=
  match loop engine.stepDecrease fuel context with
  | none => none
  | some context => engine.performLightIncrease fuel context

def flood (present : BlockCoords → Bool) : Flood BlockCoords LightAxisDirection where
  next := BlockCoords.relative
  opposite := opposite
  opens pos d := present pos && present (pos.relative d) &&
    !engine.blocks.occludes (engine.blockState pos) (engine.blockState (pos.relative d)) d.direction
  cost pos := engine.blocks.getLightOpacity (engine.blockState pos)
  next_opposite := BlockCoords.relative_opposite
  opposite_opposite := opposite_opposite
  opens_opposite pos d := by
    rw [BlockCoords.relative_opposite, direction_opposite,
      occludes_comm, Bool.and_comm (present (pos.relative d))]
  cost_pos pos := getLightOpacity_pos _
  all := all
  mem_all := mem_all
  opensPlain pos d := present pos && present (pos.relative d) &&
    !engine.blocks.occludes engine.blocks.air (engine.blockState (pos.relative d)) d.direction
  shaped pos := !(engine.blocks.lightOcclusionShape (engine.blockState pos)).isEmpty
  opensPlain_of_opens pos d h := by
    simp only [Bool.and_eq_true, Bool.not_eq_true'] at h ⊢
    refine ⟨h.1, Bool.eq_false_iff.2 fun hair => ?_⟩
    rw [occludes_of_isEmpty isEmpty_air hair] at h
    exact Bool.noConfusion h.2
  opens_of_opensPlain pos d hshaped h := by
    simp only [Bool.and_eq_true, Bool.not_eq_true', Bool.not_eq_false'] at h hshaped ⊢
    refine ⟨h.1, Bool.eq_false_iff.2 fun hblock => ?_⟩
    rw [occludes_of_isEmpty hshaped hblock] at h
    exact Bool.noConfusion h.2
  emission pos := if present pos then engine.emittedLight (engine.blockState pos) else 0
  room := engine.layout.containsEncodedBlockPos

def readEntry (entry : PackedLightQueueEntry) : FloodEntry BlockCoords LightAxisDirection where
  pos := engine.layout.decodeBlockPos entry.blockPos
  level := entry.level
  directions := entry.directions.directions
  shaped := entry.hasSidedTransparentBlocks
  recheck := entry.shouldRecheckLevel
  write := entry.shouldWriteLevel

def floodState (context : LightContext) : FloodState BlockCoords LightAxisDirection where
  level := context.light.levelAt engine.layout
  increases := context.increase.map engine.readEntry
  decreases := context.decrease.map engine.readEntry
  refused := context.refused

/-- The sections with light stay the same, and the queues hold positions in them. -/
structure Lit (present : BlockCoords → Bool) (context : LightContext) : Prop where
  present_eq : context.light.presentAt engine.layout = present
  level_le (pos : BlockCoords) : context.light.levelAt engine.layout pos ≤ maxLightLevel
  increase : ∀ entry ∈ context.increase,
    present (engine.layout.decodeBlockPos entry.blockPos) = true
  decrease : ∀ entry ∈ context.decrease,
    present (engine.layout.decodeBlockPos entry.blockPos) = true

variable {engine} {present : BlockCoords → Bool} {context : LightContext} {pos : BlockCoords}
  {block : CachedLightBlock}

variable {directions : LightDirectionSet} {flags : LightQueueFlags}

theorem enqueueIncrease_light {level : ℕ} :
    (engine.enqueueIncrease pos level directions flags context).light = context.light := by
  unfold enqueueIncrease
  cases engine.layout.encodeBlockPos pos <;> rfl

theorem enqueueDecrease_light {level : ℕ} :
    (engine.enqueueDecrease pos level directions flags context).light = context.light := by
  unfold enqueueDecrease
  cases engine.layout.encodeBlockPos pos <;> rfl

theorem blockState_eq (h : engine.layout.cachedBlock pos = some block) :
    engine.blockState pos = engine.getBlockState block := by
  simp only [blockState, h]
  rfl

theorem shapeFlags_eq (state : S) : engine.shapeFlags state =
    packFlags (!(engine.blocks.lightOcclusionShape state).isEmpty)
      false false := by
  unfold shapeFlags
  cases (engine.blocks.lightOcclusionShape state).isEmpty <;> rfl

theorem packFlags_recheck (sided : Bool) :
    packFlags sided false false ||| recheckLevel =
      packFlags sided true false := by
  cases sided <;> rfl

theorem packFlags_write (sided : Bool) :
    packFlags sided false false ||| writeLevel =
      packFlags sided false true := by
  cases sided <;> rfl

theorem targetLevel_eq (level : ℕ) (sourceState : Option S) (targetState : S)
    (direction : Direction) (saturating : Bool) :
    engine.targetLevel level sourceState targetState direction saturating =
      if engine.blocks.occludes (sourceState.getD engine.blocks.air) targetState direction = false ∧
          (saturating = true ∨ engine.blocks.getLightOpacity targetState < level) then
        some (level - engine.blocks.getLightOpacity targetState, engine.shapeFlags targetState)
      else none := by
  have hne : engine.blocks.getLightOpacity targetState ≠ lightBlocked :=
    Nat.ne_of_lt (Nat.lt_succ_of_le (getLightOpacity_le targetState))
  unfold targetLevel
  rw [getLightBlockInto_eq]
  cases engine.blocks.occludes (sourceState.getD engine.blocks.air) targetState direction with
  | true => simp
  | false =>
    cases saturating with
    | true => simp [hne]
    | false =>
      simp only [Bool.false_eq_true, if_false, hne, true_and, false_or]
      by_cases hlevel : level ≤ engine.blocks.getLightOpacity targetState
      · rw [if_pos hlevel, if_neg (Nat.not_lt.2 hlevel)]
      · rw [if_neg hlevel, if_pos (Nat.lt_of_not_le hlevel)]

theorem readEntry_fromParts {packed level directions : ℕ}
    (hpacked : engine.layout.encodeBlockPos pos = some packed) (hlevel : level ≤ maxLightLevel)
    (hdirections : directions < 64) (sided recheck write : Bool) :
    engine.readEntry (fromParts packed level directions
        (packFlags sided recheck write)) =
      ⟨pos, level, LightDirectionSet.directions directions, sided, recheck, write⟩ := by
  have hlt := packed_lt hpacked
  have hlevel' : level < 16 := lt_succ_of_le hlevel
  have hbits : ∀ i, i < 3 → (flags (fromParts packed
      level directions (packFlags sided recheck write))).testBit (61 + i) =
      (write.toNat + 2 * recheck.toNat + 4 * sided.toNat).testBit i :=
    testBit_fromParts hlt hlevel' hdirections _
  unfold readEntry
  congr 1
  · exact (congrArg engine.layout.decodeBlockPos
      (blockPos_fromParts hlt hlevel' hdirections _)).trans
      (decodeBlockPos_encode hpacked)
  · exact level_fromParts hlt hlevel' hdirections _
  · exact congrArg LightDirectionSet.directions (directions_fromParts hlt hlevel' hdirections _)
  · rw [hasSidedTransparentBlocks, LightQueueFlags.hasSidedTransparentBlocks,
      contains_two_pow, hbits 2 (by decide)]
    cases sided <;> cases recheck <;> cases write <;> rfl
  · rw [shouldRecheckLevel, recheckLevel,
      contains_two_pow, hbits 1 (by decide)]
    cases sided <;> cases recheck <;> cases write <;> rfl
  · rw [shouldWriteLevel, writeLevel,
      contains_two_pow, hbits 0 (by decide)]
    cases sided <;> cases recheck <;> cases write <;> rfl

variable (engine) in
def Sees (present : BlockCoords → Bool) (context : LightContext)
    (state : FloodState BlockCoords LightAxisDirection) : Prop :=
  engine.Lit present context ∧ engine.floodState context = state

section Sees

variable {state : FloodState BlockCoords LightAxisDirection} {level directions : ℕ}
  {entry : PackedLightQueueEntry}

theorem sees_new {light : LightLayerEdit} (hpresent : ∀ pos, light.presentAt engine.layout pos =
      present pos) (hle : ∀ pos, light.levelAt engine.layout pos ≤ maxLightLevel) :
    engine.Sees present (.new light) ⟨light.levelAt engine.layout, [], [], []⟩ := by
  refine ⟨⟨funext hpresent, hle, ?_, ?_⟩, rfl⟩
  · rintro _ ⟨⟩
  · rintro _ ⟨⟩

section

variable (h : engine.Sees present context state)

include h

theorem Sees.enqueueIncrease (hpos : present pos = true) (hlevel : level ≤ maxLightLevel)
    (hdirections : directions < 64) (sided recheck write : Bool) :
    engine.Sees present (engine.enqueueIncrease pos level directions
        (packFlags sided recheck write) context)
      ((engine.flood present).enqueueIncrease
        ⟨pos, level, LightDirectionSet.directions directions, sided, recheck, write⟩ state) := by
  obtain ⟨hlit, rfl⟩ := h
  unfold LightEngine.enqueueIncrease Flood.enqueueIncrease
  cases hpacked : engine.layout.encodeBlockPos pos with
  | none =>
    have hroom : (engine.flood present).room pos = false :=
      encodeBlockPos_eq_none.1 hpacked
    constructor
    · exact ⟨hlit.present_eq, hlit.level_le, hlit.increase, hlit.decrease⟩
    · rw [hroom]
      rfl
  | some packed =>
    have hroom : (engine.flood present).room pos = true :=
      (encodeBlockPos_eq_some.1 hpacked).1
    have hread := readEntry_fromParts hpacked hlevel hdirections sided recheck write
    constructor
    · refine ⟨hlit.present_eq, hlit.level_le, ?_, hlit.decrease⟩
      simp only [mem_append, mem_singleton]
      rintro entry (hentry | rfl)
      · exact hlit.increase entry hentry
      · exact (congrArg (present ·.pos) hread).trans hpos
    · rw [hroom, if_pos rfl]
      simp [floodState, hread]

theorem Sees.enqueueDecrease (hpos : present pos = true) (hlevel : level ≤ maxLightLevel)
    (hdirections : directions < 64) (sided : Bool) :
    engine.Sees present (engine.enqueueDecrease pos level directions
        (packFlags sided false false) context)
      ((engine.flood present).enqueueDecrease
        ⟨pos, level, LightDirectionSet.directions directions, sided, false, false⟩ state) := by
  obtain ⟨hlit, rfl⟩ := h
  unfold LightEngine.enqueueDecrease Flood.enqueueDecrease
  cases hpacked : engine.layout.encodeBlockPos pos with
  | none =>
    have hroom : (engine.flood present).room pos = false :=
      encodeBlockPos_eq_none.1 hpacked
    constructor
    · exact ⟨hlit.present_eq, hlit.level_le, hlit.increase, hlit.decrease⟩
    · rw [hroom]
      rfl
  | some packed =>
    have hroom : (engine.flood present).room pos = true :=
      (encodeBlockPos_eq_some.1 hpacked).1
    have hread := readEntry_fromParts hpacked hlevel hdirections sided false false
    constructor
    · refine ⟨hlit.present_eq, hlit.level_le, hlit.increase, ?_⟩
      simp only [mem_append, mem_singleton]
      rintro entry (hentry | rfl)
      · exact hlit.decrease entry hentry
      · exact (congrArg (present ·.pos) hread).trans hpos
    · rw [hroom, if_pos rfl]
      simp [floodState, hread]

theorem Sees.setLevel (hblock : engine.layout.cachedBlock pos = some block)
    (hpos : present pos = true) (hlevel : level ≤ maxLightLevel) :
    engine.Sees present (context.setLevel block level) (Flood.setLevel pos level state) := by
  obtain ⟨hlit, rfl⟩ := h
  have hpresent : context.light.hasNonMissing block = true := by
    rw [← presentAt_eq hblock, hlit.present_eq]
    exact hpos
  have hset := levelAt_set hblock hpresent hlevel
  constructor
  · refine ⟨(presentAt_set _ _ _ _).trans hlit.present_eq, fun pos' => ?_,
      hlit.increase, hlit.decrease⟩
    rw [LightContext.setLevel, hset]
    by_cases hpos' : pos' = pos
    · rwa [hpos', Function.update_self]
    · rw [Function.update_of_ne hpos']
      exact hlit.level_le pos'
  · simp only [floodState, LightContext.setLevel, Flood.setLevel, hset]

theorem Sees.enqueueEmitted (hpos : present pos = true) : engine.Sees present
      (engine.enqueueEmitted pos (engine.blockState pos)
        (engine.shapeFlags (engine.blockState pos)) context)
      ((engine.flood present).relight pos state) := by
  have hemission : (engine.flood present).emission pos =
      engine.emittedLight (engine.blockState pos) := if_pos hpos
  unfold LightEngine.enqueueEmitted Flood.relight Flood.writeEntry
  rw [hemission]
  split_ifs
  · exact h
  · rw [shapeFlags_eq, packFlags_write]
    have henqueue := h.enqueueIncrease hpos (engine.emittedLight_le (engine.blockState pos))
      (show LightDirectionSet.all < 64 by decide)
      (!(engine.blocks.lightOcclusionShape (engine.blockState pos)).isEmpty) false true
    rwa [directions_all] at henqueue

end

theorem Lit.exists_neighbor (h : engine.Lit present context) (hpos : present pos = true) :
    ∃ block, engine.layout.cachedBlock pos = some block ∧
      context.light.hasNonMissing block = true := by
  rw [← h.present_eq] at hpos
  exact exists_cachedBlock hpos

theorem level_le (entry : PackedLightQueueEntry) : entry.level ≤ maxLightLevel := and_le_right

variable {direction : LightAxisDirection} {neighbor : CachedLightBlock}

/-- An entry passes to a neighbour with light unless the face between is occluded. -/
theorem passes_readEntry {source : CachedLightBlock}
    (hsource : engine.layout.cachedBlockFromPacked entry.blockPos = some source)
    (hneighbor : engine.layout.cachedBlock (source.blockPos.relative direction) = some neighbor)
    (hpos : present (engine.layout.decodeBlockPos entry.blockPos) = true)
    (hpresent : present (source.blockPos.relative direction) = true) :
    (engine.flood present).passes (engine.readEntry entry) direction =
      !engine.blocks.occludes ((engine.sourceState entry source).getD engine.blocks.air)
        (engine.getBlockState neighbor) direction.direction := by
  have hdecode := (cachedBlock_eq_some.1 hsource).2.1
  rw [← blockState_eq hneighbor]
  unfold Flood.passes sourceState
  rw [hdecode] at hpresent ⊢
  cases hsided : entry.hasSidedTransparentBlocks with
  | true =>
    simp only [readEntry, hsided, if_true, flood, hpos, hpresent, Bool.true_and, Option.getD_some]
    rw [blockState_eq hsource]
  | false =>
    simp [readEntry, hsided, flood, hpos, hpresent]

theorem passes_of_not_present {e : FloodEntry BlockCoords LightAxisDirection}
    (h : present (e.pos.relative direction) = false) :
    (engine.flood present).passes e direction = false := by
  unfold Flood.passes
  simp [flood, h]

theorem spread_readEntry (hneighbor : engine.layout.cachedBlock
      ((engine.readEntry entry).pos.relative direction) = some neighbor) :
    (engine.flood present).spread (engine.readEntry entry) direction =
      ⟨(engine.readEntry entry).pos.relative direction,
        entry.level - engine.blocks.getLightOpacity (engine.getBlockState neighbor),
        LightDirectionSet.directions (.allExceptOpposite direction),
        !(engine.blocks.lightOcclusionShape (engine.getBlockState neighbor)).isEmpty,
        false, false⟩ := by
  rw [← blockState_eq hneighbor, LightDirectionSet.allExceptOpposite, directions_allExcept]
  rfl

section Neighbor

variable {source : CachedLightBlock}
  (hsource : engine.layout.cachedBlockFromPacked entry.blockPos = some source)
  (hpos : present (engine.layout.decodeBlockPos entry.blockPos) = true)

include hsource hpos

/-- A link of an entry leads to a block that holds no light, or to one with the level and the cost
of its position. -/
theorem Lit.link (hlit : engine.Lit present context) (direction : LightAxisDirection) :
    ((engine.flood present).passes (engine.readEntry entry) direction = false ∧
      ∀ neighbor, engine.layout.cachedBlock (source.blockPos.relative direction) = some neighbor →
        context.light.hasNonMissing neighbor = false) ∨
    ∃ neighbor, present ((engine.readEntry entry).pos.relative direction) = true ∧
      engine.layout.cachedBlock ((engine.readEntry entry).pos.relative direction) = some neighbor ∧
      context.light.hasNonMissing neighbor = true ∧
      (engine.flood present).passes (engine.readEntry entry) direction =
        !engine.blocks.occludes ((engine.sourceState entry source).getD engine.blocks.air)
          (engine.getBlockState neighbor) direction.direction ∧
      context.light.get neighbor = (engine.floodState context).level
        ((engine.flood present).next (engine.readEntry entry).pos direction) ∧
      engine.blocks.getLightOpacity (engine.getBlockState neighbor) = (engine.flood present).cost
        ((engine.flood present).next (engine.readEntry entry).pos direction) := by
  have hdecode : source.blockPos = (engine.readEntry entry).pos :=
    (cachedBlock_eq_some.1 hsource).2.1
  cases hpresent : present ((engine.readEntry entry).pos.relative direction) with
  | false =>
    refine .inl ⟨passes_of_not_present hpresent, fun neighbor hneighbor => ?_⟩
    rw [hdecode] at hneighbor
    rwa [← hlit.present_eq, presentAt_eq hneighbor] at hpresent
  | true =>
    obtain ⟨neighbor, hneighbor, hlight⟩ := hlit.exists_neighbor hpresent
    refine .inr ⟨neighbor, rfl, hneighbor, hlight,
      passes_readEntry hsource (hdecode ▸ hneighbor) hpos (hdecode ▸ hpresent),
      (levelAt_eq hneighbor).symm, ?_⟩
    rw [← blockState_eq hneighbor]
    rfl

theorem Sees.increaseNeighbor (h : engine.Sees present context state)
    (direction : LightAxisDirection) :
    engine.Sees present (engine.increaseNeighbor entry source context direction)
      ((engine.flood present).raise (engine.readEntry entry) state direction) := by
  have hdecode : source.blockPos = (engine.readEntry entry).pos :=
    (cachedBlock_eq_some.1 hsource).2.1
  have hsees := h
  obtain ⟨hlit, rfl⟩ := h
  unfold LightEngine.increaseNeighbor Flood.raise
  rcases hlit.link hsource hpos direction with
    ⟨hpasses, hmissing⟩ | ⟨neighbor, hpresent, hneighbor, hlight, hpasses, hget, hcost⟩
  · rw [hpasses]
    cases hneighbor : engine.layout.cachedBlock (source.blockPos.relative direction) with
    | none => exact hsees
    | some neighbor =>
      simp only [hmissing neighbor hneighbor, Bool.not_false, if_true, Bool.false_eq_true,
        false_and, if_false]
      exact hsees
  · have hcost_pos := (engine.flood present).cost_pos
      ((engine.flood present).next (engine.readEntry entry).pos direction)
    have hlevel : (engine.readEntry entry).level = entry.level := rfl
    rw [hdecode, hneighbor, hpasses, spread_readEntry hneighbor]
    simp only [hlight, Bool.not_true, Bool.false_eq_true, if_false, targetLevel_eq,
      false_or, hget, hcost, hlevel, Bool.not_eq_true']
    have hset := hsees.setLevel hneighbor hpresent
      (le_trans (sub_le _ ((engine.flood present).cost
        ((engine.flood present).next (engine.readEntry entry).pos direction))) (level_le entry))
    generalize (engine.floodState context).level
      ((engine.flood present).next (engine.readEntry entry).pos direction) = current at *
    generalize (engine.flood present).cost
      ((engine.flood present).next (engine.readEntry entry).pos direction) = cost at *
    by_cases hraise : engine.blocks.occludes ((engine.sourceState entry source).getD
        engine.blocks.air) (engine.getBlockState neighbor) direction.direction = false ∧
      current + cost < entry.level
    · rw [if_neg (by omega), if_pos ⟨hraise.1, by omega⟩, if_pos hraise]
      simp only
      rw [if_neg (by omega)]
      split_ifs
      · rw [shapeFlags_eq]
        exact hset.enqueueIncrease hpresent (le_trans (sub_le _ _) (level_le entry))
          (allExcept_lt _) _ false false
      · exact hset
    · rw [if_neg hraise]
      split_ifs with hshort hopen
      · exact hsees
      · have hcurrent : ¬ current + cost < entry.level := fun hlt => hraise ⟨hopen.1, hlt⟩
        simp only
        rw [if_pos (by omega)]
        exact hsees
      · exact hsees

/-- `perform_light_decrease` takes away over one link what an entry has given. -/
theorem Sees.decreaseNeighbor (h : engine.Sees present context state)
    (direction : LightAxisDirection) :
    engine.Sees present (engine.decreaseNeighbor entry source context direction)
      ((engine.flood present).lower (engine.readEntry entry) state direction) := by
  have hdecode : source.blockPos = (engine.readEntry entry).pos :=
    (cachedBlock_eq_some.1 hsource).2.1
  have hsees := h
  obtain ⟨hlit, rfl⟩ := h
  unfold LightEngine.decreaseNeighbor Flood.lower
  rcases hlit.link hsource hpos direction with
    ⟨hpasses, hmissing⟩ | ⟨neighbor, hpresent, hneighbor, hlight, hpasses, hget, hcost⟩
  · rw [hpasses]
    cases hneighbor : engine.layout.cachedBlock (source.blockPos.relative direction) with
    | none => exact hsees
    | some neighbor =>
      simp only [hmissing neighbor hneighbor, Bool.not_false, if_true, Bool.false_eq_true,
        false_and, if_false]
      exact hsees
  · have hlevel : (engine.readEntry entry).level = entry.level := rfl
    rw [hdecode, hneighbor, hpasses, spread_readEntry hneighbor]
    simp only [hlight, Bool.not_true, Bool.false_eq_true, if_false, targetLevel_eq,
      true_or, and_true, hget, hcost, hlevel, Bool.not_eq_true']
    have hcurrent := hlit.level_le ((engine.readEntry entry).pos.relative direction)
    have hset := (hsees.enqueueEmitted hpresent).setLevel hneighbor hpresent (zero_le _)
    rw [blockState_eq hneighbor] at hset
    change (engine.floodState context).level
      ((engine.flood present).next (engine.readEntry entry).pos direction) ≤ _ at hcurrent
    generalize (engine.floodState context).level
      ((engine.flood present).next (engine.readEntry entry).pos direction) = current at *
    generalize (engine.flood present).cost
      ((engine.flood present).next (engine.readEntry entry).pos direction) = cost at *
    by_cases hlower : engine.blocks.occludes ((engine.sourceState entry source).getD
        engine.blocks.air) (engine.getBlockState neighbor) direction.direction = false ∧ current ≠ 0
    · rw [if_neg hlower.2, if_pos hlower.1, if_pos hlower]
      simp only
      by_cases htarget : current + cost ≤ entry.level
      · rw [if_neg (by omega), if_pos (by omega), if_pos htarget, shapeFlags_eq]
        rw [shapeFlags_eq] at hset
        exact hset.enqueueDecrease hpresent (le_trans (sub_le _ _) (level_le entry))
          (allExcept_lt _) _
      · rw [if_pos (by omega), if_neg htarget, shapeFlags_eq, packFlags_recheck,
          ← blockState_eq hneighbor]
        have henqueue :=
          hsees.enqueueIncrease hpresent hcurrent (show LightDirectionSet.all < 64 by decide)
          (!(engine.blocks.lightOcclusionShape
            (engine.blockState ((engine.readEntry entry).pos.relative direction))).isEmpty) true
              false
        rwa [directions_all] at henqueue
    · rw [if_neg hlower]
      split_ifs with hdark hopen
      · exact hsees
      · exact absurd ⟨hopen, hdark⟩ hlower
      · exact hsees

theorem Sees.foldl_increaseNeighbor (directions : List LightAxisDirection)
    (h : engine.Sees present context state) :
    engine.Sees present (directions.foldl (engine.increaseNeighbor entry source) context)
      (directions.foldl ((engine.flood present).raise (engine.readEntry entry)) state) := by
  induction directions generalizing context state with
  | nil => exact h
  | cons direction directions ih => exact ih (h.increaseNeighbor hsource hpos direction)

theorem Sees.foldl_decreaseNeighbor (directions : List LightAxisDirection)
    (h : engine.Sees present context state) :
    engine.Sees present (directions.foldl (engine.decreaseNeighbor entry source) context)
      (directions.foldl ((engine.flood present).lower (engine.readEntry entry)) state) := by
  induction directions generalizing context state with
  | nil => exact h
  | cons direction directions ih => exact ih (h.decreaseNeighbor hsource hpos direction)

end Neighbor

section

variable (h : engine.Sees present context state)

include h

theorem Sees.stepIncrease : Option.Rel (engine.Sees present) (engine.stepIncrease context)
      ((engine.flood present).stepIncrease state) := by
  obtain ⟨hlit, rfl⟩ := h
  unfold LightEngine.stepIncrease Flood.stepIncrease
  cases hqueue : context.increase with
  | nil =>
    simp only [floodState, hqueue, map_nil]
    exact .none
  | cons entry rest =>
    have hpos := hlit.increase entry (hqueue ▸ mem_cons_self)
    obtain ⟨source, hsource, _⟩ := hlit.exists_neighbor hpos
    have hsource' : engine.layout.cachedBlockFromPacked entry.blockPos = some source := hsource
    have hget : context.light.get source =
        (engine.floodState context).level (engine.readEntry entry).pos :=
      (levelAt_eq hsource).symm
    have hrest : engine.Sees present { context with increase := rest }
        { engine.floodState context with increases := rest.map engine.readEntry } :=
      ⟨⟨hlit.present_eq, hlit.level_le,
        fun e he => hlit.increase e (hqueue ▸ mem_cons_of_mem _ he), hlit.decrease⟩, rfl⟩
    have hwritten := hrest.setLevel hsource hpos (level_le entry)
    have hincreases : (engine.floodState context).increases =
        engine.readEntry entry :: rest.map engine.readEntry := by
      simp [floodState, hqueue]
    simp only [hsource', hincreases, hget]
    by_cases hskip : (entry.shouldRecheckLevel && (engine.floodState context).level
        (engine.readEntry entry).pos != entry.level) = true
    · have hskip' : ((engine.readEntry entry).recheck && (engine.floodState context).level
          (engine.readEntry entry).pos != (engine.readEntry entry).level) = true := hskip
      rw [if_pos hskip, if_pos hskip']
      exact .some hrest
    · have hskip' : ¬ ((engine.readEntry entry).recheck && (engine.floodState context).level
          (engine.readEntry entry).pos != (engine.readEntry entry).level) = true := hskip
      rw [if_neg hskip, if_neg hskip']
      refine .some (Sees.foldl_increaseNeighbor hsource' hpos entry.directions.directions ?_)
      by_cases hwrite : (!entry.shouldRecheckLevel && entry.shouldWriteLevel) = true
      · have hwrite' : (!(engine.readEntry entry).recheck && (engine.readEntry entry).write) =
          true := hwrite
        rw [if_pos hwrite, if_pos hwrite']
        exact hwritten
      · have hwrite' : ¬ (!(engine.readEntry entry).recheck && (engine.readEntry entry).write) =
          true := hwrite
        rw [if_neg hwrite, if_neg hwrite']
        exact hrest

theorem Sees.stepDecrease : Option.Rel (engine.Sees present) (engine.stepDecrease context)
      ((engine.flood present).stepDecrease state) := by
  obtain ⟨hlit, rfl⟩ := h
  unfold LightEngine.stepDecrease Flood.stepDecrease
  cases hqueue : context.decrease with
  | nil =>
    simp only [floodState, hqueue, map_nil]
    exact .none
  | cons entry rest =>
    have hpos := hlit.decrease entry (hqueue ▸ mem_cons_self)
    obtain ⟨source, hsource, _⟩ := hlit.exists_neighbor hpos
    have hsource' : engine.layout.cachedBlockFromPacked entry.blockPos = some source := hsource
    have hrest : engine.Sees present { context with decrease := rest }
        { engine.floodState context with decreases := rest.map engine.readEntry } :=
      ⟨⟨hlit.present_eq, hlit.level_le, hlit.increase,
        fun e he => hlit.decrease e (hqueue ▸ mem_cons_of_mem _ he)⟩, rfl⟩
    have hdecreases : (engine.floodState context).decreases =
        engine.readEntry entry :: rest.map engine.readEntry := by
      simp [floodState, hqueue]
    simp only [hsource', hdecreases]
    exact .some (Sees.foldl_decreaseNeighbor hsource' hpos entry.directions.directions hrest)

theorem Sees.sized : (engine.flood present).Sized state := by
  obtain ⟨_, rfl⟩ := h
  constructor
  · simp only [floodState, mem_map]
    rintro _ ⟨entry, _, rfl⟩
    exact length_filter_le _ _
  · simp only [floodState, mem_map]
    rintro _ ⟨entry, _, rfl⟩
    exact length_filter_le _ _

end

variable (engine) in
/-- The next entry does not write its level over a higher one. -/
def writesUp (context : LightContext) : Bool :=
  match context.increase with
  | [] => true
  | entry :: _ =>
    match engine.layout.cachedBlockFromPacked entry.blockPos with
    | none => true
    | some source => !entry.shouldWriteLevel || context.light.get source ≤ entry.level

theorem Sees.writesUp (h : engine.Sees present context state)
    (hup : engine.writesUp context = true) : Flood.WritesUp state := by
  obtain ⟨hlit, rfl⟩ := h
  intro e rest hqueue hwrite
  cases hincrease : context.increase with
  | nil => simp [floodState, hincrease] at hqueue
  | cons entry entries =>
    simp only [floodState, hincrease, map_cons, List.cons.injEq] at hqueue
    obtain ⟨rfl, _⟩ := hqueue
    obtain ⟨source, hsource, _⟩ := hlit.exists_neighbor
      (hlit.increase entry (hincrease ▸ mem_cons_self))
    have hsource' : engine.layout.cachedBlockFromPacked entry.blockPos = some source := hsource
    have hwrite' : entry.shouldWriteLevel = true := hwrite
    simp only [LightEngine.writesUp, hincrease, hsource', hwrite', Bool.not_true, Bool.false_or,
      decide_eq_true_eq] at hup
    exact (levelAt_eq hsource).le.trans hup

theorem Sees.reaches_writesUp (h : engine.Sees present context state)
    (hup : ∀ context', Reaches engine.stepIncrease context context' →
      engine.writesUp context' = true) {t : FloodState BlockCoords LightAxisDirection}
    (ht : Reaches (engine.flood present).stepIncrease state t) : Flood.WritesUp t := by
  obtain ⟨context', hreach, hsees⟩ := ht.related (fun _ _ hr => rel_swap (Sees.stepIncrease hr)) h
  exact hsees.writesUp (hup context' hreach)

variable {old distance source : BlockCoords → ℕ}

theorem Sees.performLightIncrease (h : engine.Sees present context state) :
    ∃ fuel final, engine.performLightIncrease fuel context = some final := by
  obtain ⟨fuel, t, ht⟩ := h.sized.exists_loop_increase
  have hrel := loop_related (fun _ _ => Sees.stepIncrease) h fuel
  rw [ht] at hrel
  cases hloop : loop engine.stepIncrease fuel context with
  | none => rw [hloop] at hrel; cases hrel
  | some final => exact ⟨fuel, final, hloop⟩

theorem Sees.performLightDecrease (h : engine.Sees present context state) :
    ∃ fuel final, engine.performLightDecrease fuel context = some final := by
  obtain ⟨fuel, t, ht⟩ := h.sized.exists_loop_decrease
  have hrel := loop_related (fun _ _ => Sees.stepDecrease) h fuel
  rw [ht] at hrel
  cases hloop : loop engine.stepDecrease fuel context with
  | none => rw [hloop] at hrel; cases hrel
  | some middle =>
    rw [hloop] at hrel
    cases hrel with
    | some hmiddle =>
      obtain ⟨fuel', final, hfinal⟩ := hmiddle.performLightIncrease
      refine ⟨fuel + fuel', final, ?_⟩
      rw [LightEngine.performLightDecrease, loop_add hloop fuel']
      rw [add_comm]
      exact loop_add hfinal fuel

theorem reaches_performLightDecrease {fuel : ℕ} {final : LightContext}
    (h : engine.performLightDecrease fuel context = some final) :
    ∃ middle, Reaches engine.stepDecrease context middle ∧ engine.stepDecrease middle = none ∧
      Reaches engine.stepIncrease middle final ∧ engine.stepIncrease final = none := by
  unfold LightEngine.performLightDecrease at h
  cases hmiddle : loop engine.stepDecrease fuel context with
  | none => simp [hmiddle] at h
  | some middle =>
    simp only [hmiddle] at h
    obtain ⟨hreach, hend⟩ := reaches_of_loop hmiddle
    obtain ⟨hreach', hend'⟩ := reaches_of_loop h
    exact ⟨middle, hreach, hend, hreach', hend'⟩

theorem Sees.reaches_decrease (hz : (engine.flood present).Horizon maxLightLevel old distance)
    (hsource : ∀ a, source a = (engine.flood present).emission a ∨ source a = maxLightLevel)
    (hemission : ∀ a, (engine.flood present).emission a ≤ source a)
    (h : engine.Sees present context state)
    (hlowering : (engine.flood present).Lowering maxLightLevel source state)
    (hnear : Flood.Near maxLightLevel old distance state) {middle : LightContext}
    (hreach : Reaches engine.stepDecrease context middle)
    (hend : engine.stepDecrease middle = none) :
    ∃ t, Reaches (engine.flood present).stepDecrease state t ∧ engine.Sees present middle t ∧
      (∀ field, (engine.flood present).Closed source field →
        (engine.flood present).Raising source field t) ∧
      Flood.Near maxLightLevel old distance t := by
  obtain ⟨t, ht, hsees⟩ := hreach.related (fun _ _ => Sees.stepDecrease) h
  have hstuck : (engine.flood present).stepDecrease t = none := by
    have hrel := hsees.stepDecrease
    rw [hend] at hrel
    cases hs : (engine.flood present).stepDecrease t with
    | none => rfl
    | some t' => rw [hs] at hrel; cases hrel
  exact ⟨t, ht, hsees, Flood.lowering_raises hz hsource hemission hlowering hnear ht hstuck⟩

section Increase

variable (hz : (engine.flood present).Horizon maxLightLevel old distance)
  (hsource : ∀ a, source a ≤ maxLightLevel) (h : engine.Sees present context state)
  (hraising : ∀ field, (engine.flood present).Closed source field →
    (engine.flood present).Raising source field state)
  (hnear : Flood.Near maxLightLevel old distance state)
  (hup : ∀ t, Reaches (engine.flood present).stepIncrease state t → Flood.WritesUp t)

include hz hsource h hraising hnear hup

theorem Sees.reaches_increase {context' : LightContext}
    (hreach : Reaches engine.stepIncrease context context') :
    context'.refused = [] ∧ (engine.stepIncrease context' = none →
      (engine.flood present).Settled source (context'.light.levelAt engine.layout) ∧
        engine.Lit present context') := by
  obtain ⟨t, ht, hlit, rfl⟩ := hreach.related (fun _ _ => Sees.stepIncrease) h
  constructor
  · have hclosed := Flood.closed_top (m := engine.flood present) hsource
    exact ((hraising _ hclosed).reaches hz hclosed hnear hup ht).2.refused
  · intro hend
    have hstuck : (engine.flood present).stepIncrease (engine.floodState context') = none := by
      have hrel := Sees.stepIncrease ⟨hlit, rfl⟩
      rw [hend] at hrel
      cases hs : (engine.flood present).stepIncrease (engine.floodState context') with
      | none => rfl
      | some t' => rw [hs] at hrel; cases hrel
    exact ⟨(Flood.raising_settles hz hsource hraising hnear hup ht hstuck).1, hlit⟩

end Increase

end Sees

end LightEngine

end Steel
