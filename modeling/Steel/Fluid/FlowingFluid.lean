import Mathlib.Order.Lattice.Nat
import Mathlib.Tactic.Common
import Steel.Lib.Notification
import Steel.Utils.ChunkPos

/-! # Flowing fluids

A flow is what its neighbours make of it: one less than the strongest flow beside it, a falling flow
below the same fluid, or a source between sources.
-/

namespace Steel

/-- The fluids of the registry. -/
inductive FluidRef where
  | empty
  | flowingWater
  | water
  | flowingLava
  | lava
  deriving DecidableEq

namespace FluidRef

def isEmpty : FluidRef → Bool
  | empty => true
  | _ => false

def isSource : FluidRef → Bool
  | water | lava => true
  | _ => false

/-- `is_water_fluid` -/
def isWater : FluidRef → Bool
  | water | flowingWater => true
  | _ => false

/-- `is_lava_fluid` -/
def isLava : FluidRef → Bool
  | lava | flowingLava => true
  | _ => false

def sourceVariant : FluidRef → FluidRef
  | flowingWater => water
  | flowingLava => lava
  | fluid => fluid

def flowingVariant : FluidRef → FluidRef
  | water => flowingWater
  | lava => flowingLava
  | fluid => fluid

end FluidRef

structure FluidState where
  fluidId : FluidRef
  amount : ℕ
  falling : Bool
  deriving DecidableEq

namespace FluidState

/-- `FluidState::EMPTY` -/
def empty : FluidState := ⟨.empty, 0, false⟩

def source (fluid : FluidRef) : FluidState := ⟨fluid, 8, false⟩

def flowing (fluid : FluidRef) (amount : ℕ) (falling : Bool) : FluidState :=
  ⟨fluid, amount, falling⟩

def isEmpty (state : FluidState) : Bool := state.fluidId.isEmpty || state.amount == 0

def isSource (state : FluidState) : Bool := state.fluidId.isSource

def fromBlockLevel (fluid : FluidRef) (level : ℕ) : FluidState :=
  if level = 0 then source fluid.sourceVariant
  else if level ≤ 7 then flowing fluid.flowingVariant (8 - level) false
  else flowing fluid.flowingVariant 8 true

def toBlockLevel (state : FluidState) : ℕ :=
  if state.isSource then 0 else if state.falling then 8 else 8 - state.amount

end FluidState

/-- The two liquid blocks. -/
inductive Liquid where
  | water
  | lava
  deriving DecidableEq

namespace Liquid

def fluid : Liquid → FluidRef
  | water => .water
  | lava => .lava

/-- `is_same` -/
def isSame : Liquid → FluidRef → Bool
  | water => FluidRef.isWater
  | lava => FluidRef.isLava

def state (kind : Liquid) (level : Fin 16) : FluidState := .fromBlockLevel kind.fluid level.val

/-- What a liquid block can hold: the source, or a flow of less than its amount, or a full falling
flow. -/
inductive Holds (kind : Liquid) : FluidState → Prop where
  | source : Holds kind (.source kind.fluid)
  | flowing {amount : ℕ} : 0 < amount → amount < 8 →
      Holds kind (.flowing kind.fluid.flowingVariant amount false)
  | falling : Holds kind (.flowing kind.fluid.flowingVariant 8 true)

variable {kind : Liquid}

theorem holds_state (level : Fin 16) : kind.Holds (kind.state level) := by
  have hsource : kind.fluid.sourceVariant = kind.fluid := by cases kind <;> rfl
  unfold state FluidState.fromBlockLevel
  split_ifs
  · rw [hsource]
    exact .source
  · exact .flowing (by omega) (by omega)
  · exact .falling

variable {fluid : FluidState}

theorem Holds.state_toBlockLevel (h : kind.Holds fluid) :
    kind.state (Fin.ofNat 16 fluid.toBlockLevel) = fluid := by
  cases h with
  | source => cases kind <;> rfl
  | @flowing amount hpos hlt =>
    have hflowing : kind.fluid.flowingVariant.isSource = false := by cases kind <;> rfl
    have hlevel : (FluidState.flowing kind.fluid.flowingVariant amount false).toBlockLevel =
        8 - amount := by
      simp [FluidState.toBlockLevel, FluidState.isSource, FluidState.flowing, hflowing]
    have hval : (Fin.ofNat 16 (8 - amount)).val = 8 - amount := Nat.mod_eq_of_lt (by omega)
    rw [hlevel, state, FluidState.fromBlockLevel, hval, if_neg (by omega), if_pos (by omega),
      Nat.sub_sub_self (Nat.le_of_lt hlt)]
  | falling => cases kind <;> rfl

theorem Holds.not_isEmpty (h : kind.Holds fluid) : fluid.isEmpty = false := by
  cases h with
  | source => cases kind <;> rfl
  | @flowing amount hpos hlt =>
    have hne : amount ≠ 0 := by omega
    cases kind <;> simp [FluidState.isEmpty, FluidState.flowing, Liquid.fluid,
      FluidRef.flowingVariant, FluidRef.isEmpty, hne]
  | falling => cases kind <;> rfl

theorem Holds.isSame (h : kind.Holds fluid) : kind.isSame fluid.fluidId = true := by
  cases h <;> cases kind <;> rfl

theorem state_isSource (level : Fin 16) : (kind.state level).isSource ↔ level = 0 := by
  constructor
  · intro hsource
    unfold state FluidState.fromBlockLevel at hsource
    split_ifs at hsource with hlevel
    · exact Fin.ext hlevel
    · cases kind <;> cases hsource
    · cases kind <;> cases hsource
  · rintro rfl
    cases kind <;> rfl

theorem isSame_fluid {other : Liquid} (h : other.Holds fluid) :
    kind.isSame fluid.fluidId ↔ kind = other := by
  cases h <;> cases kind <;> cases other <;>
    simp [isSame, FluidState.source, FluidState.flowing, Liquid.fluid, FluidRef.flowingVariant,
      FluidRef.isWater, FluidRef.isLava]

end Liquid

/-- What stands at a position; all blocks but water and lava are of a type of their own. -/
inductive FluidBlock (β : Type) where
  | liquid (kind : Liquid) (level : Fin 16)
  | other (block : β)
  deriving DecidableEq

abbrev FluidWorld (β : Type) := BlockPos → FluidBlock β

abbrev FluidTick := BlockPos × FluidRef

abbrev FluidScript (β : Type) := Script BlockPos (FluidBlock β) FluidTick

/-- The game rules, the dimension, and what is known of the other blocks: their properties and
what they do when they are placed, filled, or notified. -/
structure FluidRules (β : Type) where
  waterSourceConversion : Bool
  lavaSourceConversion : Bool
  fastLava : Bool
  isInValidBounds : BlockPos → Bool
  voidAir : β
  air : β
  stone : β
  obsidian : β
  cobblestone : β
  basalt : β
  fluidState : β → FluidState
  isSolid : β → Bool
  blocksMotion : β → Bool
  isSoulSoil : β → Bool
  isBlueIce : β → Bool
  isLiquidContainer : β → Bool
  isFluidExcludedBlock : β → Bool
  canPlaceLiquid : β → FluidRef → Bool
  /-- The block with another value of `WATERLOGGED`, if it has the property. -/
  setWaterlogged : β → Option (Bool → β)
  mergedOffsetFaceOccludes : BlockPos → FluidBlock β → BlockPos → FluidBlock β → Direction → Bool
  onPlace : β → BlockPos → FluidScript β
  placeLiquid : β → BlockPos → FluidState → FluidScript β
  handleNeighborChanged : β → BlockPos → FluidScript β
  /-- Only liquid blocks flow. -/
  fluidState_cases : ∀ block, fluidState block = .empty ∨
    (fluidState block).isSource ∧ (fluidState block).amount = 8
  /-- Worlds end below the highest coordinate. -/
  lt_of_isInValidBounds : ∀ pos, isInValidBounds pos → pos.y.toInt < 2 ^ 31 - 1

namespace FluidRules

variable {β : Type} (rules : FluidRules β) (blocks : FluidWorld β) (pos : BlockPos)

def getBlockState : FluidBlock β :=
  if rules.isInValidBounds pos then blocks pos else .other rules.voidAir

def getFluidState : FluidBlock β → FluidState
  | .liquid kind level => kind.state level
  | .other block => rules.fluidState block

def fluidAt : FluidState :=
  rules.getFluidState (rules.getBlockState blocks pos)

def dropOff : Liquid → ℕ
  | .water => 1
  | .lava => if rules.fastLava then 1 else 2

def slopeFindDistance : Liquid → ℕ
  | .water => 4
  | .lava => if rules.fastLava then 4 else 2

def canConvertToSource : Liquid → Bool
  | .water => rules.waterSourceConversion
  | .lava => rules.lavaSourceConversion

def canPassThroughWall (state : FluidBlock β) (neighborPos : BlockPos)
    (neighborState : FluidBlock β) (direction : Direction) : Bool :=
  rules.isInValidBounds neighborPos &&
    !rules.mergedOffsetFaceOccludes pos state neighborPos neighborState direction

def canHoldAnyFluidState : FluidBlock β → Bool
  | .liquid _ _ => true
  | .other block =>
    if rules.isLiquidContainer block then true
    else if rules.blocksMotion block then false
    else !rules.isFluidExcludedBlock block

def canHoldSpecificFluid (fluid : FluidRef) : FluidBlock β → Bool
  | .liquid _ _ => true
  | .other block =>
    if rules.isLiquidContainer block then rules.canPlaceLiquid block fluid else true

def canHoldFluid (fluid : FluidRef) (state : FluidBlock β) : Bool :=
  rules.canHoldAnyFluidState state && rules.canHoldSpecificFluid fluid state

def canPassHorizontallyInternal (kind : Liquid) (state : FluidBlock β) : Bool :=
  let fluid := rules.getFluidState state
  if kind.isSame fluid.fluidId && fluid.isSource then false else rules.canHoldAnyFluidState state

def isHole (state : FluidBlock β) (kind : Liquid) : Bool :=
  let below := pos.relative .down
  let belowState := rules.getBlockState blocks below
  if !rules.isInValidBounds below then false
  else if !rules.canPassThroughWall pos state below belowState .down then false
  else if kind.isSame (rules.getFluidState belowState).fluidId then true
  else rules.canHoldFluid kind.fluid.flowingVariant belowState

/-- `get_height(…) >= 0.444_444_45`, which is four ninths as a float. -/
def isFourNinths (kind : Liquid) (fluid : FluidState) : Bool :=
  !fluid.isEmpty &&
    (kind.isSame (rules.fluidAt blocks (pos.relative .up)).fluidId || 4 ≤ fluid.amount)

/-- `can_be_replaced_with` of the fluid that is there. -/
def canBeReplacedWith (fluid : FluidState) (otherFluid : FluidRef) (direction : Direction) : Bool :=
  match fluid.fluidId with
  | .empty => true
  | .water | .flowingWater => direction = .down && !otherFluid.isWater
  | .lava | .flowingLava => rules.isFourNinths blocks pos .lava fluid && otherFluid.isWater

def sides : List Direction := [.north, .south, .east, .west]

/-- The body of the loop over the sides in `get_new_liquid`. -/
def incomingStep (state : FluidBlock β) (kind : Liquid) (incoming : ℕ × ℕ) (direction : Direction) :
    ℕ × ℕ :=
  let (maxIncomingAmount, sourceCount) := incoming
  let neighborPos := pos.relative direction
  let neighborState := rules.getBlockState blocks neighborPos
  let neighborFluid := rules.getFluidState neighborState
  if !kind.isSame neighborFluid.fluidId then incoming
  else if !rules.canPassThroughWall pos state neighborPos neighborState direction then incoming
  else if neighborFluid.isSource then
    (max maxIncomingAmount (8 - rules.dropOff kind), sourceCount + 1)
  else (max maxIncomingAmount (neighborFluid.amount - rules.dropOff kind), sourceCount)

def supportsSource (kind : Liquid) : Bool :=
  let belowFluid := rules.fluidAt blocks (pos.relative .down)
  (match rules.getBlockState blocks (pos.relative .down) with
    | .liquid _ _ => false
    | .other block => rules.isSolid block) ||
    kind.isSame belowFluid.fluidId && belowFluid.isSource

def getNewLiquid (state : FluidBlock β) (kind : Liquid) : FluidState :=
  let (maxIncomingAmount, sourceCount) :=
    sides.foldl (rules.incomingStep blocks pos state kind) (0, 0)
  let abovePos := pos.relative .up
  let aboveState := rules.getBlockState blocks abovePos
  if 2 ≤ sourceCount ∧ rules.canConvertToSource kind ∧ rules.supportsSource blocks pos kind then
    .source kind.fluid.sourceVariant
  else if kind.isSame (rules.getFluidState aboveState).fluidId ∧
      rules.canPassThroughWall pos state abovePos aboveState .up then
    .flowing kind.fluid.flowingVariant 8 true
  else if 0 < maxIncomingAmount then .flowing kind.fluid.flowingVariant maxIncomingAmount false
  else .empty

/-- The loop of `get_slope_distance`; the search behind a neighbour is given. -/
def slopeLoop (blocks : FluidWorld β) (kind : Liquid) (pos : BlockPos) (state : FluidBlock β)
    (depth : ℕ) (fromDirection : Option Direction)
    (deeper : BlockPos → FluidBlock β → Direction → ℕ) : List Direction → ℕ → ℕ
  | [], minDistance => minDistance
  | direction :: rest, minDistance =>
    let neighbor := pos.relative direction
    let neighborState := rules.getBlockState blocks neighbor
    if fromDirection.map Direction.opposite = some direction ∨
        !rules.canPassHorizontallyInternal kind neighborState ∨
        !rules.canPassThroughWall pos state neighbor neighborState direction ∨
        !rules.canHoldSpecificFluid kind.fluid.flowingVariant neighborState then
      slopeLoop blocks kind pos state depth fromDirection deeper rest minDistance
    else if rules.isHole blocks neighbor neighborState kind then depth
    else
      slopeLoop blocks kind pos state depth fromDirection deeper rest
        (min minDistance (deeper neighbor neighborState direction))

/-- `get_slope_distance`; the first argument is how much deeper the search may go. -/
def getSlopeDistance (blocks : FluidWorld β) (kind : Liquid) :
    ℕ → BlockPos → FluidBlock β → ℕ → Option Direction → ℕ
  | 0, pos, state, depth, fromDirection =>
    rules.slopeLoop blocks kind pos state depth fromDirection (fun _ _ _ => 1000) sides 1000
  | remaining + 1, pos, state, depth, fromDirection =>
    rules.slopeLoop blocks kind pos state depth fromDirection
      (fun neighbor neighborState direction =>
        getSlopeDistance blocks kind remaining neighbor neighborState (depth + 1)
          (some direction)) sides 1000

/-- A side to which a fluid may spread, with what would be there and how far it is to a hole. -/
def spreadCandidate (state : FluidBlock β) (kind : Liquid) (direction : Direction) :
    Option (Direction × FluidState × FluidState × ℕ) :=
  let neighbor := pos.relative direction
  let neighborState := rules.getBlockState blocks neighbor
  let neighborFluid := rules.getFluidState neighborState
  let newFluid := rules.getNewLiquid blocks neighbor neighborState kind
  let isWaterloggable : Bool :=
    match neighborState with
    | .liquid _ _ => false
    | .other block => (rules.setWaterlogged block).isSome
  if !rules.canPassHorizontallyInternal kind neighborState ∨
      !rules.canPassThroughWall pos state neighbor neighborState direction ∨
      !rules.canHoldSpecificFluid newFluid.fluidId neighborState ∨
      (isWaterloggable ∧ !newFluid.isSource) ∨ newFluid.isEmpty then none
  else
    let distance :=
      if rules.isHole blocks neighbor neighborState kind then 0
      else
        -- the distance of the search is positive for water and for lava
        rules.getSlopeDistance blocks kind (rules.slopeFindDistance kind - 1) neighbor
          neighborState 1 (some direction)
    some (direction, newFluid, neighborFluid, distance)

def getSpread (state : FluidBlock β) (kind : Liquid) : List (Direction × FluidState) :=
  let candidates := sides.filterMap (rules.spreadCandidate blocks pos state kind)
  let minDistance := (candidates.map fun (_, _, _, distance) => distance).min?.getD 1000
  (candidates.filter fun (direction, newFluid, existingFluid, distance) =>
    distance = minDistance && rules.canBeReplacedWith blocks (pos.relative direction) existingFluid
      newFluid.fluidId direction).map fun (direction, fluid, _, _) => (direction, fluid)

def fluidStateToBlock (fluid : FluidState) : FluidBlock β :=
  if fluid.fluidId.isEmpty then .other rules.air
  else if fluid.fluidId.isWater then .liquid .water (Fin.ofNat 16 fluid.toBlockLevel)
  else .liquid .lava (Fin.ofNat 16 fluid.toBlockLevel)

def fluidStateToBlockWithExisting (fluid : FluidState) (existingState : FluidBlock β) :
    FluidBlock β :=
  let waterlogged :=
    match existingState with
    | .liquid _ _ => none
    | .other block => rules.setWaterlogged block
  match waterlogged with
  | some setWaterlogged =>
    if fluid.fluidId.isEmpty then .other (setWaterlogged false)
    else if fluid.fluidId = .water then .other (setWaterlogged true)
    else rules.fluidStateToBlock fluid
  | none => rules.fluidStateToBlock fluid

def baseSpreadTo (fluid : FluidState) (next : FluidScript β) : FluidScript β :=
  .read fun blocks =>
    match rules.getBlockState blocks pos with
    | .liquid _ _ => .write pos (rules.fluidStateToBlock fluid) next
    | .other block =>
      if rules.isLiquidContainer block then (rules.placeLiquid block pos fluid).andThen next
      else .write pos (rules.fluidStateToBlock fluid) next

def spreadTo (kind : Liquid) (pos : BlockPos) (fluid : FluidState) (direction : Direction)
    (next : FluidScript β) : FluidScript β :=
  match kind with
  | .water => rules.baseSpreadTo pos fluid next
  | .lava =>
    if direction = .down then
      .read fun blocks =>
        if (rules.fluidAt blocks pos).fluidId.isWater then
          match rules.getBlockState blocks pos with
          | .liquid .water _ => .write pos (.other rules.stone) next
          | _ => next
        else rules.baseSpreadTo pos fluid next
    else rules.baseSpreadTo pos fluid next

def sourceNeighborCount (kind : Liquid) : ℕ :=
  Direction.horizontal.countP fun direction =>
    let fluid := rules.fluidAt blocks (pos.relative direction)
    kind.isSame fluid.fluidId && fluid.isSource

def spreadToSides (kind : Liquid) (pos : BlockPos) (state : FluidBlock β) (fluid : FluidState) :
    FluidScript β :=
  let neighbor := if fluid.falling then 7 else fluid.amount - rules.dropOff kind
  if neighbor = 0 then .done
  else
    .read fun blocks =>
      (rules.getSpread blocks pos state kind).foldr
        (fun (direction, newFluid) next =>
          rules.spreadTo kind (pos.relative direction) newFluid direction next) .done

def baseSpread (kind : Liquid) (pos : BlockPos) (state : FluidBlock β) (fluid : FluidState) :
    FluidScript β :=
  if fluid.isEmpty then .done
  else
    .read fun blocks =>
      let below := pos.relative .down
      let belowState := rules.getBlockState blocks below
      let belowFluid := rules.getFluidState belowState
      let newBelowFluid := rules.getNewLiquid blocks below belowState kind
      if rules.isInValidBounds below ∧
          ¬ (kind.isSame belowFluid.fluidId ∧ belowFluid.isSource) ∧
          rules.canHoldAnyFluidState belowState ∧
          rules.canPassThroughWall pos state below belowState .down ∧
          ¬ newBelowFluid.isEmpty ∧
          rules.canBeReplacedWith blocks below belowFluid newBelowFluid.fluidId .down ∧
          rules.canHoldSpecificFluid newBelowFluid.fluidId belowState then
        rules.spreadTo kind below newBelowFluid .down
          (.read fun blocks =>
            if 3 ≤ rules.sourceNeighborCount blocks pos kind then
              rules.spreadToSides kind pos state fluid
            else .done)
      else if fluid.isSource ∨ ¬ rules.isHole blocks pos state kind then
        rules.spreadToSides kind pos state fluid
      else .done

def baseTick (kind : Liquid) (pos : BlockPos) (state : FluidBlock β) (currentFluid : FluidState) :
    FluidScript β :=
  if currentFluid.isEmpty ∨ ¬ kind.isSame currentFluid.fluidId then .done
  else if ¬ currentFluid.isSource then
    .read fun blocks =>
      let newFluid := rules.getNewLiquid blocks pos state kind
      if newFluid.isEmpty then
        .write pos (.other rules.air) (rules.baseSpread kind pos (.other rules.air) newFluid)
      else if newFluid ≠ currentFluid then
        let newState := rules.fluidStateToBlockWithExisting newFluid state
        .write pos newState
          (.schedule (pos, newFluid.fluidId) (rules.baseSpread kind pos newState newFluid))
      else rules.baseSpread kind pos state currentFluid
  else rules.baseSpread kind pos state currentFluid

def tick (fluid : FluidRef) (pos : BlockPos) (state : FluidBlock β) (fluidState : FluidState) :
    FluidScript β :=
  match fluid with
  | .empty => .done
  | .water | .flowingWater => rules.baseTick .water pos state fluidState
  | .lava | .flowingLava => rules.baseTick .lava pos state fluidState

/-- `Direction::FLOW_NEIGHBOR_CHECK` -/
def flowNeighborCheck : List Direction := [.up, .north, .south, .west, .east]

/-- The loop of `should_spread_liquid`: what lava turns into. -/
def interactionLoop (blocks : FluidWorld β) (pos : BlockPos) (hasSoulSoilBelow : Bool) :
    List Direction → Option β
  | [] => none
  | direction :: rest =>
    let neighborPos := pos.relative direction
    if (rules.fluidAt blocks neighborPos).fluidId.isWater then
      some (if (rules.fluidAt blocks pos).isSource then rules.obsidian else rules.cobblestone)
    else
      match rules.getBlockState blocks neighborPos with
      | .other block =>
        if hasSoulSoilBelow ∧ rules.isBlueIce block then some rules.basalt
        else interactionLoop blocks pos hasSoulSoilBelow rest
      | .liquid _ _ => interactionLoop blocks pos hasSoulSoilBelow rest

/-- `should_spread_liquid`: nothing if the liquid should spread, and what it turns into
otherwise. -/
def shouldSpreadLiquid (kind : Liquid) (pos : BlockPos) : Option β :=
  match kind with
  | .water => none
  | .lava =>
    let hasSoulSoilBelow :=
      match rules.getBlockState blocks (pos.relative .down) with
      | .other block => rules.isSoulSoil block
      | .liquid _ _ => false
    rules.interactionLoop blocks pos hasSoulSoilBelow flowNeighborCheck

def liquidOnPlace (kind : Liquid) (level : Fin 16) (pos : BlockPos) : FluidScript β :=
  .read fun blocks =>
    match rules.shouldSpreadLiquid blocks kind pos with
    | none => .schedule (pos, (kind.state level).fluidId) .done
    | some block => .write pos (.other block) .done

def liquidHandleNeighborChanged (kind : Liquid) (pos : BlockPos) : FluidScript β :=
  .read fun blocks =>
    match rules.shouldSpreadLiquid blocks kind pos with
    | none => .schedule (pos, (rules.fluidAt blocks pos).fluidId) .done
    | some block => .write pos (.other block) .done

def callbacks : Callbacks BlockPos (FluidBlock β) FluidTick where
  neighbors pos := Direction.all.map pos.relative
  canWrite := rules.isInValidBounds
  onPlace pos state :=
    match state with
    | .liquid kind level => rules.liquidOnPlace kind level pos
    | .other block => rules.onPlace block pos
  onNeighborChanged pos :=
    .read fun blocks =>
      match rules.getBlockState blocks pos with
      | .liquid kind _ => rules.liquidHandleNeighborChanged kind pos
      | .other block => rules.handleNeighborChanged block pos
  onTick := fun (pos, fluid) =>
    .read fun blocks =>
      let state := rules.getBlockState blocks pos
      let fluidState := rules.getFluidState state
      if fluidState.fluidId = fluid then rules.tick fluid pos state fluidState else .done

end FluidRules

end Steel
