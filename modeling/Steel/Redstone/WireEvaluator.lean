import Mathlib.Data.Finset.Basic
import Steel.Lib.StableSort
import Steel.World.NeighborUpdater

/-! # The power of redstone wires

A wire should have what the blocks around it give, or one less than the strongest wire that it
hears: a wire beside it, one on top of a conductor beside it, or one below a block beside it that is
no conductor.
-/

namespace Steel

open Direction List

/-- What stands at a position; all blocks but wires are of a type of their own. -/
inductive RedstoneState (β : Type) where
  | air
  | wire (power : Fin 16)
  | other (block : β)
  deriving DecidableEq

abbrev RedstoneLevel (β : Type) := BlockPos → RedstoneState β

/-- How other blocks answer when wires do not count as sources. -/
structure SignalBehaviors (β : Type) where
  getSignal : β → RedstoneLevel β → BlockPos → Direction → ℤ
  getDirectSignal : β → RedstoneLevel β → BlockPos → Direction → ℤ
  isRedstoneConductor : β → RedstoneLevel β → BlockPos → Bool
  canSurviveOn : RedstoneLevel β → BlockPos → RedstoneState β → Bool

namespace RedstoneState

variable {β : Type}

def isWire : RedstoneState β → Bool
  | wire _ => true
  | _ => false

def isAir : RedstoneState β → Bool
  | air => true
  | _ => false

def getWireSignal : RedstoneState β → ℤ
  | wire power => power.val
  | _ => 0

theorem getWireSignal_le (state : RedstoneState β) : state.getWireSignal ≤ 15 := by
  cases state with
  | wire power =>
    have hlt := power.isLt
    rw [getWireSignal]
    omega
  | air => exact Int.le.intro 15 rfl
  | other block => exact Int.le.intro 15 rfl

end RedstoneState

namespace SignalBehaviors

variable {β : Type} (behaviors : SignalBehaviors β) (level : RedstoneLevel β) (pos : BlockPos)

/-- The loop of `get_direct_signal_to`. -/
def directSignalLoop (directionToCenter : Direction) (ignoreCenterSignal : Bool) :
    List Direction → ℤ → ℤ
  | [], signal => signal
  | direction :: rest, signal =>
    if direction = directionToCenter ∧ ignoreCenterSignal then
      directSignalLoop directionToCenter ignoreCenterSignal rest signal
    else
      match level (pos.relative direction) with
      | .other block =>
        let signal := max signal
          (behaviors.getDirectSignal block level (pos.relative direction) direction)
        if signal = 15 then 15
        else directSignalLoop directionToCenter ignoreCenterSignal rest signal
      | _ => directSignalLoop directionToCenter ignoreCenterSignal rest signal

def getDirectSignalTo (directionToCenter : Direction) (ignoreCenterSignal : Bool) : ℤ :=
  behaviors.directSignalLoop level pos directionToCenter ignoreCenterSignal all 0

/-- The signal of a block beside a wire, and whether the block is a conductor. Neither is asked
of air and of other wires. -/
def getNonWireSignal (state : RedstoneState β) (direction : Direction)
    (ignoreCenterSignal : Bool) : ℤ × Bool :=
  match state with
  | .other block =>
    let signal := behaviors.getSignal block level pos direction
    let isConductor := behaviors.isRedstoneConductor block level pos
    if isConductor ∧ signal < 15 then
      (max signal (behaviors.getDirectSignalTo level pos direction.opposite ignoreCenterSignal),
        isConductor)
    else (signal, isConductor)
  | _ => (0, false)

def getSignalFromVertical (state : RedstoneState β) (direction : Direction)
    (ignoreCenterSignal : Bool) : ℤ × Bool :=
  if state.isWire then (0, false)
  else behaviors.getNonWireSignal level pos state direction ignoreCenterSignal

/-- The body of the loop over the sides in `calculate_target_strength`. -/
def sideStep (ignoreCenterSignal aboveIsConductor : Bool) (direction : Direction) (signal : ℤ) :
    ℤ :=
  let neighborPos := pos.relative direction
  let neighborState := level neighborPos
  if neighborState.isWire then max signal (neighborState.getWireSignal - 1)
  else
    let (neighborSignal, neighborIsConductor) :=
      behaviors.getNonWireSignal level neighborPos neighborState direction ignoreCenterSignal
    let signal := max signal neighborSignal
    if signal = 15 then 15
    else if signal < 14 then
      if neighborIsConductor ∧ ¬ aboveIsConductor then
        max signal ((level (neighborPos.relative .up)).getWireSignal - 1)
      else if ¬ neighborIsConductor then
        max signal ((level (neighborPos.relative .down)).getWireSignal - 1)
      else signal
    else signal

def sideLoop (ignoreCenterSignal aboveIsConductor : Bool) : List Direction → ℤ → ℤ
  | [], signal => signal
  | direction :: rest, signal =>
    let signal := behaviors.sideStep level pos ignoreCenterSignal aboveIsConductor direction signal
    if signal = 15 then 15 else sideLoop ignoreCenterSignal aboveIsConductor rest signal

def calculateTargetStrength : ℤ :=
  let ignoreCenterSignal := (level pos).isAir || (level pos).isWire
  let belowPos := pos.relative .down
  let abovePos := pos.relative .up
  let (belowSignal, _) :=
    behaviors.getSignalFromVertical level belowPos (level belowPos) .down ignoreCenterSignal
  if belowSignal = 15 then 15
  else
    let (aboveSignal, aboveIsConductor) :=
      behaviors.getSignalFromVertical level abovePos (level abovePos) .up ignoreCenterSignal
    let signal := max belowSignal aboveSignal
    if signal = 15 then 15
    else
      behaviors.sideLoop level pos ignoreCenterSignal aboveIsConductor horizontal signal

/-- `bucket`: the bucket of a position in a hash map of 16. -/
def bucket (pos : BlockPos) : UInt32 :=
  let hash := ((pos.z * 31 + pos.y) * 31 + pos.x).toUInt32
  (hash ^^^ (hash >>> 16)) &&& 15

def javaHashSetUpdateOrder : List BlockPos :=
  sortStable (fun p => (bucket p).toNat)
    [pos, pos.relative .down, pos.relative .up, pos.relative .north, pos.relative .south,
      pos.relative .west, pos.relative .east]

example : javaHashSetUpdateOrder ⟨30000000, 319, -30000000⟩ =
    [⟨30000000, 318, -30000000⟩, ⟨30000000, 319, -29999999⟩, ⟨30000001, 319, -30000000⟩,
      ⟨30000000, 319, -30000000⟩, ⟨30000000, 320, -30000000⟩, ⟨30000000, 319, -30000001⟩,
      ⟨29999999, 319, -30000000⟩] := by decide

variable [DecidableEq β]

/-- The level afterwards and the positions whose neighbours are updated. Strengths that no wire
can have do not occur. -/
def updatePowerStrength (state : RedstoneState β) : RedstoneLevel β × List BlockPos :=
  let targetStrength := behaviors.calculateTargetStrength level pos
  if state.getWireSignal = targetStrength then (level, [])
  else
    (if level pos = state then Function.update level pos (.wire (Fin.ofNat 16 targetStrength.toNat))
      else level,
      javaHashSetUpdateOrder pos)

def canSurvive : Bool :=
  behaviors.canSurviveOn level (pos.relative .down) (level (pos.relative .down))

/-- Without its support a wire is removed; what the removal updates is left out. -/
def handleNeighborChanged (state : RedstoneState β) : RedstoneLevel β × List BlockPos :=
  if behaviors.canSurvive level pos then behaviors.updatePowerStrength level pos state
  else (Function.update level pos .air, [])

end SignalBehaviors

/-- A world with the wires that wait for an update. -/
structure WireUpdates (β : Type) where
  level : RedstoneLevel β
  pending : Finset BlockPos

namespace WireUpdates

variable {β : Type} [DecidableEq β]

def wiresBeside (level : RedstoneLevel β) (positions : List BlockPos) : Finset BlockPos :=
  ((positions.flatMap fun pos => updateOrder.map pos.relative).filter fun pos =>
    (level pos).isWire).toFinset

def step (behaviors : SignalBehaviors β) (s : WireUpdates β) (pos : BlockPos) : WireUpdates β :=
  let (level, positions) := behaviors.handleNeighborChanged s.level pos (s.level pos)
  ⟨level, s.pending.erase pos ∪ wiresBeside level positions⟩

end WireUpdates

namespace SignalBehaviors

variable {β : Type} (behaviors : SignalBehaviors β) (level : RedstoneLevel β) (pos : BlockPos)

def sideInput (ignoreCenterSignal : Bool) (direction : Direction) : Option ℤ :=
  let neighborPos := pos.relative direction
  if (level neighborPos).isWire then none
  else
    some (behaviors.getNonWireSignal level neighborPos (level neighborPos) direction
      ignoreCenterSignal).1

def verticalInput (ignoreCenterSignal : Bool) (direction : Direction) : ℤ :=
  (behaviors.getSignalFromVertical level (pos.relative direction) (level (pos.relative direction))
    direction ignoreCenterSignal).1

/-- What the blocks around a position give without the wires. -/
def nonWireInput : ℤ :=
  let ignoreCenterSignal := (level pos).isAir || (level pos).isWire
  (horizontal.filterMap
    (behaviors.sideInput level pos ignoreCenterSignal)).foldl max
    (max (behaviors.verticalInput level pos ignoreCenterSignal .down)
      (behaviors.verticalInput level pos ignoreCenterSignal .up))

def isConductorAt : Bool :=
  match level pos with
  | .other block => behaviors.isRedstoneConductor block level pos
  | _ => false

def heardOn (direction : Direction) : Option BlockPos :=
  let neighborPos := pos.relative direction
  if (level neighborPos).isWire then some neighborPos
  else if behaviors.isConductorAt level neighborPos then
    if behaviors.isConductorAt level (pos.relative .up) then none
    else some (neighborPos.relative .up)
  else some (neighborPos.relative .down)

theorem getNonWireSignal_snd (direction : Direction) (ignoreCenterSignal : Bool) :
    (behaviors.getNonWireSignal level pos (level pos) direction ignoreCenterSignal).2 =
      behaviors.isConductorAt level pos := by
  unfold getNonWireSignal isConductorAt
  cases level pos with
  | air => rfl
  | wire power => rfl
  | other block =>
    dsimp only
    split <;> rfl

theorem getSignalFromVertical_snd (direction : Direction) (ignoreCenterSignal : Bool) :
    (behaviors.getSignalFromVertical level pos (level pos) direction ignoreCenterSignal).2 =
      behaviors.isConductorAt level pos := by
  unfold getSignalFromVertical
  split
  case isTrue hwire =>
    unfold isConductorAt
    cases hstate : level pos with
    | wire power => rfl
    | air => rfl
    | other block => simp [hstate, RedstoneState.isWire] at hwire
  case isFalse => exact behaviors.getNonWireSignal_snd level pos direction ignoreCenterSignal

/-- A side adds what its block gives and what is left of the wire that is heard. -/
theorem le_sideStep_iff (ignoreCenterSignal : Bool) (direction : Direction) (signal k : ℤ) :
    k ≤ behaviors.sideStep level pos ignoreCenterSignal
        (behaviors.isConductorAt level (pos.relative .up)) direction signal ↔
      k ≤ signal ∨
      (∃ input ∈ behaviors.sideInput level pos ignoreCenterSignal direction, k ≤ input) ∨
      ∃ v ∈ behaviors.heardOn level pos direction, k ≤ (level v).getWireSignal - 1 := by
  have hup := (level ((pos.relative direction).relative .up)).getWireSignal_le
  have hdown := (level ((pos.relative direction).relative .down)).getWireSignal_le
  simp only [sideStep, sideInput, heardOn, ← behaviors.getNonWireSignal_snd level
    (pos.relative direction) direction ignoreCenterSignal]
  generalize behaviors.getNonWireSignal level (pos.relative direction)
    (level (pos.relative direction)) direction ignoreCenterSignal = answer
  obtain ⟨input, isConductor⟩ := answer
  split
  case isTrue => simp
  case isFalse =>
    cases isConductor <;> cases behaviors.isConductorAt level (pos.relative .up) <;>
      simp <;> grind

theorem le_sideLoop_iff {ignoreCenterSignal : Bool} {directions : List Direction} {signal : ℤ}
    (hsignal : signal ≤ 15)
    (hinput : ∀ direction ∈ directions,
      ∀ input ∈ behaviors.sideInput level pos ignoreCenterSignal direction, input ≤ 15) (k : ℤ) :
    k ≤ behaviors.sideLoop level pos ignoreCenterSignal
        (behaviors.isConductorAt level (pos.relative .up)) directions signal ↔
      k ≤ signal ∨ ∃ direction ∈ directions,
        (∃ input ∈ behaviors.sideInput level pos ignoreCenterSignal direction, k ≤ input) ∨
        ∃ v ∈ behaviors.heardOn level pos direction, k ≤ (level v).getWireSignal - 1 := by
  induction directions generalizing signal with
  | nil => simp [sideLoop]
  | cons direction rest ih =>
    have hstep := behaviors.le_sideStep_iff level pos ignoreCenterSignal direction signal
    have hle : behaviors.sideStep level pos ignoreCenterSignal
        (behaviors.isConductorAt level (pos.relative .up)) direction signal ≤ 15 := by
      by_contra hgt
      rcases (hstep 16).mp (by omega) with hlow | ⟨input, hmem, hlow⟩ | ⟨v, -, hlow⟩
      · omega
      · have := hinput direction mem_cons_self input hmem
        omega
      · have := (level v).getWireSignal_le
        omega
    rw [exists_mem_cons_iff, ← or_assoc, ← hstep, sideLoop]
    split
    case isTrue heq =>
      rw [heq]
      refine (or_iff_left_of_imp ?_).symm
      rintro ⟨other, hother, ⟨input, hmem, hlow⟩ | ⟨v, -, hlow⟩⟩
      · exact hlow.trans (hinput other (mem_cons_of_mem _ hother) input hmem)
      · have := (level v).getWireSignal_le
        omega
    case isFalse =>
      exact ih hle fun other hother => hinput other (mem_cons_of_mem _ hother)

theorem le_foldl_max_iff (l : List ℤ) (signal k : ℤ) :
    k ≤ l.foldl max signal ↔ k ≤ signal ∨ ∃ input ∈ l, k ≤ input := by
  induction l generalizing signal with
  | nil => simp
  | cons input l ih => rw [foldl_cons, ih, le_max_iff, exists_mem_cons_iff, or_assoc]

theorem le_calculateTargetStrength_iff (h : behaviors.nonWireInput level pos ≤ 15) (k : ℤ) :
    k ≤ behaviors.calculateTargetStrength level pos ↔
      k ≤ behaviors.nonWireInput level pos ∨ ∃ direction ∈ horizontal,
        ∃ v ∈ behaviors.heardOn level pos direction, k ≤ (level v).getWireSignal - 1 := by
  let ignoreCenterSignal := (level pos).isAir || (level pos).isWire
  let below := behaviors.verticalInput level pos ignoreCenterSignal .down
  let above := behaviors.verticalInput level pos ignoreCenterSignal .up
  have hparts : ∀ k, k ≤ behaviors.nonWireInput level pos ↔ (k ≤ below ∨ k ≤ above) ∨
      ∃ direction ∈ horizontal,
        ∃ input ∈ behaviors.sideInput level pos ignoreCenterSignal direction, k ≤ input := by
    intro k
    rw [nonWireInput, le_foldl_max_iff, le_max_iff]
    apply or_congr Iff.rfl
    constructor
    · rintro ⟨input, hmem, hlow⟩
      obtain ⟨direction, hd, hinput⟩ := mem_filterMap.mp hmem
      exact ⟨direction, hd, input, hinput, hlow⟩
    · rintro ⟨direction, hd, input, hinput, hlow⟩
      exact ⟨input, mem_filterMap.mpr ⟨direction, hd, hinput⟩, hlow⟩
  have hnot := mt (hparts 16).mpr (by omega)
  have hwire : ∀ v, (level v).getWireSignal - 1 ≤ 14 := by
    intro v
    have := (level v).getWireSignal_le
    omega
  have hbelow : below ≤ 15 := by
    by_contra hgt
    exact hnot (.inl (.inl (by omega)))
  have habove : above ≤ 15 := by
    by_contra hgt
    exact hnot (.inl (.inr (by omega)))
  have hside : ∀ direction ∈ horizontal,
      ∀ input ∈ behaviors.sideInput level pos ignoreCenterSignal direction, input ≤ 15 := by
    intro direction hd input hmem
    by_contra hgt
    exact hnot (.inr ⟨direction, hd, input, hmem, by omega⟩)
  have hfull : ∀ m, (m = below ∨ m = max below above) → m = 15 → (k ≤ 15 ↔
      k ≤ behaviors.nonWireInput level pos ∨ ∃ direction ∈ horizontal,
        ∃ v ∈ behaviors.heardOn level pos direction, k ≤ (level v).getWireSignal - 1) := by
    intro m hm heq
    have hall : behaviors.nonWireInput level pos = 15 := by
      refine le_antisymm h ((hparts 15).mpr (.inl ?_))
      rw [← le_max_iff]
      grind
    rw [hall]
    refine (or_iff_left_of_imp ?_).symm
    rintro ⟨direction, -, v, -, hlow⟩
    exact hlow.trans ((hwire v).trans (by decide))
  unfold calculateTargetStrength
  dsimp only
  rw [behaviors.getSignalFromVertical_snd]
  split
  case isTrue heq => exact hfull below (.inl rfl) heq
  case isFalse =>
    split
    case isTrue heq => exact hfull (max below above) (.inr rfl) heq
    case isFalse =>
      refine (behaviors.le_sideLoop_iff level pos (max_le hbelow habove) hside k).trans ?_
      rw [hparts, le_max_iff]
      simp only [and_or_left, exists_or, or_assoc]

end SignalBehaviors

open SignalBehaviors (getNonWireSignal isConductorAt verticalInput sideInput nonWireInput heardOn)

namespace SignalGetter

variable {β : Type} (behaviors : SignalBehaviors β) (level : RedstoneLevel β) (pos : BlockPos)

def getDirectSignal (direction : Direction) : ℤ :=
  match level pos with
  | .other block => behaviors.getDirectSignal block level pos direction
  | _ => 0

/-- The loop of `get_direct_signal_to`. -/
def directSignalLoop : List Direction → ℤ → ℤ
  | [], result => result
  | direction :: rest, result =>
    let result := max result (getDirectSignal behaviors level (pos.relative direction) direction)
    if 15 ≤ result then result else directSignalLoop rest result

def getDirectSignalTo : ℤ := directSignalLoop behaviors level pos all 0

def getSignal (direction : Direction) : ℤ :=
  let signal := match level pos with
    | .other block => behaviors.getSignal block level pos direction
    | _ => 0
  if behaviors.isConductorAt level pos then max signal (getDirectSignalTo behaviors level pos)
  else signal

/-- The loop of `get_best_neighbor_signal`. -/
def bestNeighborLoop : List Direction → ℤ → ℤ
  | [], best => best
  | direction :: rest, best =>
    let signal := getSignal behaviors level (pos.relative direction) direction
    if 15 ≤ signal then 15 else bestNeighborLoop rest (max best signal)

def getBestNeighborSignal : ℤ := bestNeighborLoop behaviors level pos all 0

/-- `get_incoming_wire_signal_reference` before one is taken off. -/
def getIncomingWireSignal : ℤ :=
  horizontal.foldl (fun signal direction =>
    let neighborPos := pos.relative direction
    let signal := max signal (level neighborPos).getWireSignal
    if behaviors.isConductorAt level neighborPos ∧
        ¬ behaviors.isConductorAt level (pos.relative .up) then
      max signal (level (neighborPos.relative .up)).getWireSignal
    else if ¬ behaviors.isConductorAt level neighborPos then
      max signal (level (neighborPos.relative .down)).getWireSignal
    else signal) 0

/-- Every signal of a block is one that a wire can have. -/
def SignalsBounded : Prop :=
  ∀ block level pos direction,
    (0 ≤ behaviors.getSignal block level pos direction ∧
        behaviors.getSignal block level pos direction ≤ 15) ∧
      0 ≤ behaviors.getDirectSignal block level pos direction ∧
      behaviors.getDirectSignal block level pos direction ≤ 15

variable {behaviors} {level} {pos} (hbounded : SignalsBounded behaviors)

include hbounded

variable (direction : Direction)

theorem getDirectSignal_bounds : 0 ≤ getDirectSignal behaviors level pos direction ∧
      getDirectSignal behaviors level pos direction ≤ 15 := by
  unfold getDirectSignal
  split
  · exact (hbounded _ _ _ _).2
  · decide

variable {directions : List Direction} {ignoreCenterSignal : Bool}

/-- The direction that the fast loop leaves out leads to a block that gives nothing. -/
theorem directSignalLoop_eq {toCenter : Direction} (hcenter : ignoreCenterSignal = true →
      getDirectSignal behaviors level (pos.relative toCenter) toCenter = 0)
    {signal : ℤ} (hsignal : 0 ≤ signal ∧ signal < 15) :
    behaviors.directSignalLoop level pos toCenter ignoreCenterSignal directions signal =
      directSignalLoop behaviors level pos directions signal := by
  induction directions generalizing signal with
  | nil => rfl
  | cons direction rest ih =>
    have hle : getDirectSignal behaviors level (pos.relative direction) direction ≤ 15 :=
      (getDirectSignal_bounds hbounded direction).2
    rw [SignalBehaviors.directSignalLoop, directSignalLoop]
    by_cases hskip : direction = toCenter ∧ ignoreCenterSignal = true
    · obtain ⟨rfl, hignore⟩ := hskip
      rw [if_pos ⟨rfl, hignore⟩, hcenter hignore, max_eq_left hsignal.1, if_neg hsignal.2.not_ge]
      exact ih hsignal
    · rw [if_neg hskip]
      cases hstate : level (pos.relative direction) with
      | other block =>
        simp only [getDirectSignal, hstate] at hle ⊢
        by_cases hfull : 15 ≤ max signal
            (behaviors.getDirectSignal block level (pos.relative direction) direction)
        · have heq := le_antisymm (max_le hsignal.2.le hle) hfull
          rw [if_pos hfull, if_pos heq, heq]
        · rw [if_neg hfull, if_neg fun heq => hfull heq.ge]
          exact ih ⟨le_max_of_le_left hsignal.1, not_le.mp hfull⟩
      | air | wire power =>
        simp only [getDirectSignal, hstate]
        rw [max_eq_left hsignal.1, if_neg hsignal.2.not_ge]
        exact ih hsignal

theorem directSignalLoop_bounds {signal : ℤ}
    (hsignal : 0 ≤ signal ∧ signal ≤ 15) :
    0 ≤ directSignalLoop behaviors level pos directions signal ∧
      directSignalLoop behaviors level pos directions signal ≤ 15 := by
  induction directions generalizing signal with
  | nil => exact hsignal
  | cons direction rest ih =>
    have hstep : 0 ≤ max signal
        (getDirectSignal behaviors level (pos.relative direction) direction) ∧
        max signal (getDirectSignal behaviors level (pos.relative direction) direction) ≤ 15 :=
      ⟨le_max_of_le_left hsignal.1, max_le hsignal.2 (getDirectSignal_bounds hbounded direction).2⟩
    rw [directSignalLoop]
    split_ifs
    · exact hstep
    · exact ih hstep

theorem getDirectSignalTo_le : getDirectSignalTo behaviors level pos ≤ 15 :=
  (directSignalLoop_bounds hbounded (by decide)).2

theorem getSignal_bounds :
    0 ≤ getSignal behaviors level pos direction ∧ getSignal behaviors level pos direction ≤ 15 := by
  have hown : 0 ≤ (match level pos with
      | .other block => behaviors.getSignal block level pos direction
      | _ => 0) ∧ (match level pos with
      | .other block => behaviors.getSignal block level pos direction
      | _ => 0) ≤ 15 := by
    split
    · exact (hbounded _ _ _ _).1
    · decide
  rw [getSignal]
  split_ifs
  · exact ⟨le_max_of_le_left hown.1, max_le hown.2 (getDirectSignalTo_le hbounded)⟩
  · exact hown

theorem getNonWireSignal_fst (hcenter : ignoreCenterSignal = true → getDirectSignal behaviors level
      (pos.relative direction.opposite) direction.opposite = 0) :
    (behaviors.getNonWireSignal level pos (level pos) direction ignoreCenterSignal).1 =
      getSignal behaviors level pos direction := by
  have hdirect : getDirectSignalTo behaviors level pos ≤ 15 := getDirectSignalTo_le hbounded
  have hloop : behaviors.getDirectSignalTo level pos direction.opposite ignoreCenterSignal =
      getDirectSignalTo behaviors level pos :=
    directSignalLoop_eq hbounded hcenter (by decide)
  cases hstate : level pos with
  | air | wire power =>
    simp [getNonWireSignal, getSignal, isConductorAt, hstate]
  | other block =>
    simp only [getNonWireSignal, getSignal, isConductorAt, hstate,
      hloop]
    by_cases hconductor : behaviors.isRedstoneConductor block level pos
    · rw [if_pos hconductor]
      split_ifs with hroom
      · rfl
      · exact (max_eq_left (hdirect.trans (not_lt.mp fun hlt => hroom ⟨hconductor, hlt⟩))).symm
    · rw [if_neg hconductor, if_neg fun h => hconductor h.1]

theorem le_bestNeighborLoop_iff {best : ℤ} (hbest : best ≤ 15)
    (k : ℤ) : k ≤ bestNeighborLoop behaviors level pos directions best ↔ k ≤ best ∨
      ∃ d ∈ directions, k ≤ getSignal behaviors level (pos.relative d) d := by
  induction directions generalizing best with
  | nil => simp [bestNeighborLoop]
  | cons direction rest ih =>
    have hle : getSignal behaviors level (pos.relative direction) direction ≤ 15 :=
      (getSignal_bounds hbounded direction).2
    rw [bestNeighborLoop, exists_mem_cons_iff, ← or_assoc, ← le_max_iff]
    split_ifs with hfull
    · rw [le_antisymm hle hfull, max_eq_right hbest]
      refine (or_iff_left_of_imp ?_).symm
      rintro ⟨d, -, hlow⟩
      exact hlow.trans (getSignal_bounds hbounded d).2
    · exact ih (max_le hbest hle)

omit hbounded

theorem le_getIncomingWireSignal_iff (k : ℤ) : k ≤ getIncomingWireSignal behaviors level pos ↔
    k ≤ 0 ∨ ∃ d ∈ horizontal, k ≤ (level (pos.relative d)).getWireSignal ∨
      (behaviors.isConductorAt level (pos.relative d) = true ∧
        behaviors.isConductorAt level (pos.relative .up) = false ∧
          k ≤ (level ((pos.relative d).relative .up)).getWireSignal) ∨
      (behaviors.isConductorAt level (pos.relative d) = false ∧
        k ≤ (level ((pos.relative d).relative .down)).getWireSignal) := by
  rw [getIncomingWireSignal]
  generalize (0 : ℤ) = signal
  induction horizontal generalizing signal with
  | nil => simp
  | cons direction rest ih =>
    rw [foldl_cons, ih, exists_mem_cons_iff, ← or_assoc]
    refine or_congr ?_ Iff.rfl
    dsimp only
    cases behaviors.isConductorAt level (pos.relative direction) <;>
      cases behaviors.isConductorAt level (pos.relative .up) <;> simp

theorem getWireSignal_of_not_isWire {state : RedstoneState β} (h : state.isWire = false) :
    state.getWireSignal = 0 := by
  cases state with
  | wire power => cases h
  | air | other block => rfl

theorem getSignal_of_isWire (h : (level pos).isWire = true) (direction : Direction) :
    getSignal behaviors level pos direction = 0 := by
  cases hstate : level pos with
  | wire power => simp [getSignal, isConductorAt, hstate]
  | air | other block => simp [hstate, RedstoneState.isWire] at h

theorem isConductorAt_of_isWire (h : (level pos).isWire = true) :
    behaviors.isConductorAt level pos = false := by
  cases hstate : level pos with
  | wire power => simp [isConductorAt, hstate]
  | air | other block => simp [hstate, RedstoneState.isWire] at h

include hbounded

/-- Beside a position the fast path asks for the plain signal. -/
theorem getNonWireSignal_relative :
    (behaviors.getNonWireSignal level (pos.relative direction) (level (pos.relative direction))
      direction ((level pos).isAir || (level pos).isWire)).1 =
      getSignal behaviors level (pos.relative direction) direction := by
  refine getNonWireSignal_fst hbounded direction fun hignore => ?_
  rw [BlockPos.relative_opposite, getDirectSignal]
  cases hstate : level pos with
  | air | wire power => rfl
  | other block => simp [hstate, RedstoneState.isAir, RedstoneState.isWire] at hignore

theorem le_nonWireInput_iff (k : ℤ) : k ≤ behaviors.nonWireInput level pos ↔
    k ≤ getBestNeighborSignal behaviors level pos := by
  have hnonneg (d : Direction) : 0 ≤ getSignal behaviors level (pos.relative d) d :=
    (getSignal_bounds hbounded d).1
  have hvertical (d : Direction) : behaviors.verticalInput level pos
      ((level pos).isAir || (level pos).isWire) d =
        getSignal behaviors level (pos.relative d) d := by
    rw [verticalInput, SignalBehaviors.getSignalFromVertical]
    split_ifs with hwire
    · exact (getSignal_of_isWire hwire d).symm
    · exact getNonWireSignal_relative hbounded d
  have hside (d : Direction) : behaviors.sideInput level pos
      ((level pos).isAir || (level pos).isWire) d = if (level (pos.relative d)).isWire then none
        else some (getSignal behaviors level (pos.relative d) d) := by
    rw [sideInput]
    split_ifs with hwire
    · rfl
    · rw [getNonWireSignal_relative hbounded d]
  rw [nonWireInput, SignalBehaviors.le_foldl_max_iff, le_max_iff, hvertical,
    hvertical, getBestNeighborSignal, le_bestNeighborLoop_iff hbounded (by decide)]
  constructor
  · rintro ((hdown | hup) | ⟨input, hmem, hlow⟩)
    · exact .inr ⟨.down, by decide, hdown⟩
    · exact .inr ⟨.up, by decide, hup⟩
    · obtain ⟨d, -, hd⟩ := mem_filterMap.mp hmem
      rw [hside] at hd
      split_ifs at hd
      cases hd
      exact .inr ⟨d, by cases d <;> decide, hlow⟩
  · have hzero (hk : k ≤ 0) := hk.trans (hnonneg .down)
    rintro (hk | ⟨d, -, hlow⟩)
    · exact .inl (.inl (hzero hk))
    · by_cases hwire : (level (pos.relative d)).isWire = true
      · rw [getSignal_of_isWire hwire] at hlow
        exact .inl (.inl (hzero hlow))
      · have hmem (hd : d ∈ horizontal) : ∃ input ∈ horizontal.filterMap
            (behaviors.sideInput level pos ((level pos).isAir || (level pos).isWire)), k ≤ input :=
          ⟨_, mem_filterMap.mpr ⟨d, hd, by rw [hside, if_neg hwire]⟩, hlow⟩
        cases d with
        | down => exact .inl (.inl hlow)
        | up => exact .inl (.inr hlow)
        | north | south | west | east => exact .inr (hmem (by decide))

theorem calculateTargetStrength_eq
    (hstacked : ∀ p, (level p).isWire = true → (level (p.relative .down)).isWire = false) :
    behaviors.calculateTargetStrength level pos = max (getBestNeighborSignal behaviors level pos)
      (getIncomingWireSignal behaviors level pos - 1) := by
  have hbest (k : ℤ) : k ≤ behaviors.nonWireInput level pos ↔
      k ≤ getBestNeighborSignal behaviors level pos := le_nonWireInput_iff hbounded k
  have hnonneg : 0 ≤ getBestNeighborSignal behaviors level pos :=
    (le_bestNeighborLoop_iff hbounded (by decide) 0).mpr (.inl le_rfl)
  have hle : behaviors.nonWireInput level pos ≤ 15 := by
    refine (hbest _).mp le_rfl |>.trans ?_
    by_contra hgt
    rcases (le_bestNeighborLoop_iff hbounded (by decide) 16).mp (not_le.mp hgt) with h | ⟨d, -, h⟩
    · omega
    · exact absurd (h.trans (getSignal_bounds hbounded d).2) (by decide)
  refine eq_of_forall_le_iff fun k => ?_
  have hsub (signal : ℤ) : k ≤ signal - 1 ↔ k + 1 ≤ signal := by omega
  simp only [behaviors.le_calculateTargetStrength_iff level pos hle, hbest, le_max_iff, hsub,
    le_getIncomingWireSignal_iff]
  constructor
  · refine Or.imp id ?_
    rintro ⟨d, hd, v, hv, hlow⟩
    refine .inr ⟨d, hd, ?_⟩
    rw [heardOn] at hv
    split_ifs at hv with hwire hconductor habove <;> cases hv
    · exact .inl hlow
    · exact .inr (.inl ⟨hconductor, eq_false_of_ne_true habove, hlow⟩)
    · exact .inr (.inr ⟨eq_false_of_ne_true hconductor, hlow⟩)
  · have hsilent {state : RedstoneState β} (h : state.isWire = false)
        (hk : k + 1 ≤ state.getWireSignal) : k ≤ getBestNeighborSignal behaviors level pos := by
      rw [getWireSignal_of_not_isWire h] at hk
      omega
    have hheard (d : Direction) (hd : d ∈ horizontal) {v : BlockPos}
        (hv : behaviors.heardOn level pos d = some v) (hk : k + 1 ≤ (level v).getWireSignal) :
        ∃ direction ∈ horizontal, ∃ v ∈ behaviors.heardOn level pos direction,
          k + 1 ≤ (level v).getWireSignal :=
      ⟨d, hd, v, hv, hk⟩
    rintro (hk | hk | ⟨d, hd, hside | ⟨hconductor, habove, hup⟩ | ⟨hconductor, hdown⟩⟩)
    · exact .inl hk
    · exact .inl (by omega)
    · by_cases hwire : (level (pos.relative d)).isWire = true
      · exact .inr (hheard d hd (by rw [heardOn, if_pos hwire]) hside)
      · exact .inl (hsilent (eq_false_of_ne_true hwire) hside)
    · have hwire : (level (pos.relative d)).isWire ≠ true := by
        intro hwire
        rw [isConductorAt_of_isWire hwire] at hconductor
        cases hconductor
      exact .inr (hheard d hd (by simp [heardOn, hwire, hconductor, habove]) hup)
    · by_cases hwire : (level (pos.relative d)).isWire = true
      · exact .inl (hsilent (hstacked _ hwire) hdown)
      · exact .inr (hheard d hd (by simp [heardOn, hwire, hconductor]) hdown)

omit hbounded

/-- A stone beside the origin and a wire on it. -/
def wireOnStone : RedstoneLevel Unit := fun p =>
  if p = ⟨1, 0, 0⟩ then .other () else if p = ⟨1, 1, 0⟩ then .wire 9 else .air

theorem calculateTargetStrength_wireOnStone :
    let stone : SignalBehaviors Unit := ⟨fun _ _ _ _ => 0, fun _ _ _ _ => 0, fun _ _ _ => true,
      fun _ _ _ => true⟩
    stone.calculateTargetStrength wireOnStone ⟨0, 0, 0⟩ =
      max (getBestNeighborSignal stone wireOnStone ⟨0, 0, 0⟩)
        (getIncomingWireSignal stone wireOnStone ⟨0, 0, 0⟩ - 1) := by
  refine calculateTargetStrength_eq (fun _ _ _ _ => by simp) fun p hp => ?_
  have hp : p = ⟨1, 1, 0⟩ := by
    by_contra hne
    rw [wireOnStone, if_neg hne] at hp
    split_ifs at hp <;> cases hp
  rw [hp]
  decide

end SignalGetter

end Steel
