import Steel.Fluid.FlowingFluid

/-! # Flows rest only in equilibrium

A flow that is not what its neighbours make of it has a pending tick: every change of a neighbour
schedules one, and the tick that sets a flow is removed only when it does so.
-/

namespace Steel

open Function Finset

namespace FluidRules

variable {β : Type} {rules : FluidRules β} {blocks blocks' : FluidWorld β} {pos : BlockPos}
  {state : FluidBlock β} {kind : Liquid} {level : Fin 16}

theorem isInValidBounds_of_liquid (h : rules.getBlockState blocks pos = .liquid kind level) :
    rules.isInValidBounds pos ∧ blocks pos = .liquid kind level := by
  unfold getBlockState at h
  split at h
  case isTrue hvalid => exact ⟨hvalid, h⟩
  case isFalse => cases h

theorem getNewLiquid_congr (h : ∀ direction, rules.getBlockState blocks (pos.relative direction) =
    rules.getBlockState blocks' (pos.relative direction)) :
    rules.getNewLiquid blocks pos state kind = rules.getNewLiquid blocks' pos state kind := by
  have hstep : rules.incomingStep blocks pos state kind =
      rules.incomingStep blocks' pos state kind := by
    funext incoming direction
    unfold incomingStep
    dsimp only
    rw [h]
  have hsupports : rules.supportsSource blocks pos kind =
      rules.supportsSource blocks' pos kind := by
    unfold supportsSource fluidAt
    rw [h]
  unfold getNewLiquid
  dsimp only
  rw [hstep, hsupports, h]

def Incoming (rules : FluidRules β) (blocks : FluidWorld β) (pos : BlockPos) (kind : Liquid)
    (amount : ℕ) (direction : Direction) : Prop :=
  let fluid := rules.fluidAt blocks (pos.relative direction)
  kind.isSame fluid.fluidId ∧ (fluid.isSource ∧ amount = 8 - rules.dropOff kind ∨
    ¬ fluid.isSource ∧ amount = fluid.amount - rules.dropOff kind)

theorem incomingStep_cases (incoming : ℕ × ℕ) (direction : Direction) :
    (rules.incomingStep blocks pos state kind incoming direction).1 = incoming.1 ∨
    Incoming rules blocks pos kind
      (rules.incomingStep blocks pos state kind incoming direction).1 direction := by
  unfold incomingStep Incoming fluidAt
  dsimp only
  split_ifs with hsame hpass hsource
  · exact .inl rfl
  · exact .inl rfl
  · rcases max_cases incoming.1 (8 - rules.dropOff kind) with ⟨heq, -⟩ | ⟨heq, -⟩
    · exact .inl heq
    · exact .inr ⟨by simpa using hsame, .inl ⟨hsource, heq⟩⟩
  · rcases max_cases incoming.1 ((rules.getFluidState (rules.getBlockState blocks
      (pos.relative direction))).amount - rules.dropOff kind) with ⟨heq, -⟩ | ⟨heq, -⟩
    · exact .inl heq
    · exact .inr ⟨by simpa using hsame, .inr ⟨hsource, heq⟩⟩

theorem foldl_incomingStep_cases (directions : List Direction) (incoming : ℕ × ℕ) :
    (directions.foldl (rules.incomingStep blocks pos state kind) incoming).1 = incoming.1 ∨
    ∃ direction ∈ directions, Incoming rules blocks pos kind
      (directions.foldl (rules.incomingStep blocks pos state kind) incoming).1 direction := by
  induction directions generalizing incoming with
  | nil => exact .inl rfl
  | cons direction rest ih =>
    rw [List.foldl_cons]
    rcases ih (rules.incomingStep blocks pos state kind incoming direction) with
      heq | ⟨other, hmem, hincoming⟩
    · rw [heq]
      rcases incomingStep_cases incoming direction with hsame | hincoming
      · exact .inl hsame
      · exact .inr ⟨direction, List.mem_cons_self, hincoming⟩
    · exact .inr ⟨other, List.mem_cons_of_mem _ hmem, hincoming⟩

theorem amount_le (state : FluidBlock β) : (rules.getFluidState state).amount ≤ 8 := by
  cases state with
  | liquid kind level =>
    have h := kind.holds_state level
    unfold getFluidState
    dsimp only
    generalize kind.state level = fluid at h
    cases h with
    | source => exact le_rfl
    | flowing _ hlt => exact hlt.le
    | falling => exact le_rfl
  | other block =>
    rcases rules.fluidState_cases block with hempty | ⟨-, hamount⟩
    · simp [getFluidState, hempty, FluidState.empty]
    · exact hamount.le

theorem amount_of_isSource {state : FluidBlock β} (h : (rules.getFluidState state).isSource) :
    (rules.getFluidState state).amount = 8 := by
  cases state with
  | liquid kind level =>
    rw [getFluidState, Liquid.state_isSource] at h
    subst h
    cases kind <;> rfl
  | other block =>
    rcases rules.fluidState_cases block with hempty | ⟨-, hamount⟩
    · rw [getFluidState, hempty] at h
      cases h
    · exact hamount

theorem one_le_dropOff (rules : FluidRules β) (kind : Liquid) : 1 ≤ rules.dropOff kind := by
  cases kind with
  | water => exact le_rfl
  | lava =>
    unfold dropOff
    split_ifs <;> decide

/-- What a position should hold: nothing, a source, a falling flow below the same fluid, or less
than there is beside it. -/
inductive NewLiquid (rules : FluidRules β) (blocks : FluidWorld β) (pos : BlockPos)
    (kind : Liquid) : FluidState → Prop where
  | empty : NewLiquid rules blocks pos kind .empty
  | source : NewLiquid rules blocks pos kind (.source kind.fluid)
  | falling : kind.isSame (rules.fluidAt blocks (pos.relative .up)).fluidId →
      NewLiquid rules blocks pos kind (.flowing kind.fluid.flowingVariant 8 true)
  | flowing {amount : ℕ} {direction : Direction} : 0 < amount → direction ∈ sides →
      Incoming rules blocks pos kind amount direction →
      NewLiquid rules blocks pos kind (.flowing kind.fluid.flowingVariant amount false)

theorem newLiquid_getNewLiquid (rules : FluidRules β) (blocks : FluidWorld β) (pos : BlockPos)
    (state : FluidBlock β) (kind : Liquid) :
    NewLiquid rules blocks pos kind (rules.getNewLiquid blocks pos state kind) := by
  have hsource : kind.fluid.sourceVariant = kind.fluid := by cases kind <;> rfl
  unfold getNewLiquid
  dsimp only
  split_ifs with _ habove hpos
  · rw [hsource]
    exact .source
  · exact .falling habove.1
  · rcases @foldl_incomingStep_cases β rules blocks pos state kind sides (0, 0) with
      heq | ⟨direction, hmem, hincoming⟩
    · exact absurd heq hpos.ne'
    · exact .flowing hpos hmem hincoming
  · exact .empty

theorem NewLiquid.holds {fluid : FluidState} (h : NewLiquid rules blocks pos kind fluid)
    (hne : ¬ fluid.isEmpty) : kind.Holds fluid := by
  have hdrop := rules.one_le_dropOff kind
  cases h with
  | empty => exact absurd rfl hne
  | source => exact .source
  | falling => exact .falling
  | @flowing amount direction hpos _ hincoming =>
    refine .flowing hpos ?_
    rcases hincoming.2 with ⟨-, rfl⟩ | ⟨-, rfl⟩
    · omega
    · have := rules.amount_le (rules.getBlockState blocks (pos.relative direction))
      unfold fluidAt
      omega

/-- The flow at a position is what its neighbours make of it, or it has a pending tick. -/
def Rests (rules : FluidRules β) (blocks : FluidWorld β) (ticks : Finset FluidTick)
    (pos : BlockPos) : Prop :=
  ∀ kind level, rules.getBlockState blocks pos = .liquid kind level → level ≠ 0 →
    rules.getNewLiquid blocks pos (.liquid kind level) kind ≠ kind.state level →
    (pos, (kind.state level).fluidId) ∈ ticks

variable {s : Ticking BlockPos (FluidBlock β) FluidTick}

theorem rests_of_other {ticks : Finset FluidTick} {block : β}
    (h : rules.getBlockState blocks pos = .other block) : rules.Rests blocks ticks pos := by
  intro kind level hliquid
  rw [h] at hliquid
  cases hliquid

/-- A liquid block that is told of a change gets its tick, or turns into something else. -/
theorem repairs_spreads (h : rules.getBlockState s.world pos = .liquid kind level) :
    rules.callbacks.Repairs rules.Rests (match rules.shouldSpreadLiquid s.world kind pos with
        | none => .schedule (pos, (kind.state level).fluidId) .done
        | some block => .write pos (.other block) .done) s pos := by
  obtain ⟨hvalid, hblock⟩ := isInValidBounds_of_liquid h
  cases rules.shouldSpreadLiquid s.world kind pos with
  | none =>
    left
    intro kind' level' hliquid _ _
    rw [h] at hliquid
    cases hliquid
    exact mem_insert_self _ _
  | some block =>
    refine ⟨rfl, hvalid, ?_⟩
    rw [hblock]
    exact nofun

theorem rests_or_repairs_callback (callback : Callback BlockPos (FluidBlock β))
    (hdue : Callbacks.Due s pos callback) :
    rules.Rests s.world s.ticks pos ∨
      rules.callbacks.Repairs rules.Rests (rules.callbacks.script callback) s pos := by
  cases hstate : rules.getBlockState s.world pos with
  | other block => exact .inl (rests_of_other hstate)
  | liquid kind level =>
    obtain ⟨-, hblock⟩ := isInValidBounds_of_liquid hstate
    right
    cases callback with
    | placed p value =>
      obtain ⟨rfl, hvalue⟩ := hdue
      rw [hblock] at hvalue
      subst hvalue
      exact repairs_spreads hstate
    | neighborChanged p =>
      obtain rfl := hdue
      have hfluid : (rules.fluidAt s.world p).fluidId = (kind.state level).fluidId := by
        rw [fluidAt, hstate]
        rfl
      have hrepairs := repairs_spreads hstate
      rw [← hfluid] at hrepairs
      simp only [Callbacks.script, callbacks, Callbacks.Repairs, hstate]
      exact hrepairs

theorem tick_fluidId (pos : BlockPos) (state : FluidBlock β) (fluid : FluidState) :
    rules.tick (kind.state level).fluidId pos state fluid =
      rules.baseTick kind pos state fluid := by
  have h := kind.holds_state level
  generalize kind.state level = current at h
  cases h <;> cases kind <;> rfl

theorem fluidStateToBlock_of_holds {fluid : FluidState} (h : kind.Holds fluid) :
    rules.fluidStateToBlock fluid = .liquid kind (Fin.ofNat 16 fluid.toBlockLevel) := by
  cases h <;> cases kind <;> rfl

theorem repairs_baseTick (h : rules.getBlockState s.world pos = .liquid kind level)
    (hlevel : level ≠ 0)
    (hne : rules.getNewLiquid s.world pos (.liquid kind level) kind ≠ kind.state level) :
    rules.callbacks.Repairs rules.Rests
      (rules.baseTick kind pos (.liquid kind level) (kind.state level)) s pos := by
  obtain ⟨hvalid, hblock⟩ := isInValidBounds_of_liquid h
  have hholds := kind.holds_state level
  have hsource : ¬ (kind.state level).isSource := mt (Liquid.state_isSource level).mp hlevel
  unfold baseTick
  rw [if_neg (by simp [hholds.not_isEmpty, hholds.isSame]), if_pos hsource]
  change Callbacks.Repairs _ _ (if _ then _ else _) s pos
  split_ifs with hempty
  · refine ⟨rfl, hvalid, ?_⟩
    rw [hblock]
    exact nofun
  · have hnew := (newLiquid_getNewLiquid rules s.world pos (.liquid kind level) kind).holds hempty
    refine ⟨rfl, hvalid, ?_⟩
    rw [hblock]
    intro hsame
    have hlevel' := (FluidBlock.liquid.inj (hsame.trans (fluidStateToBlock_of_holds hnew))).2
    exact hne (hnew.state_toBlockLevel.symm.trans (congrArg kind.state hlevel'.symm))

theorem rests_or_repairs_tick (tick : FluidTick) (hrests : rules.Rests s.world s.ticks pos) :
    rules.Rests s.world (s.ticks.erase tick) pos ∨
      rules.callbacks.Repairs rules.Rests (rules.callbacks.onTick tick)
        ⟨s.world, s.ticks.erase tick⟩ pos := by
  by_cases hstill : rules.Rests s.world (s.ticks.erase tick) pos
  · exact .inl hstill
  · right
    unfold Rests at hstill
    push Not at hstill
    obtain ⟨kind, level, hstate, hlevel, hne, hgone⟩ := hstill
    have hmem := hrests kind level hstate hlevel hne
    have htick : tick = (pos, (kind.state level).fluidId) := by
      by_contra hother
      exact hgone (mem_erase.mpr ⟨Ne.symm hother, hmem⟩)
    subst htick
    change Callbacks.Repairs _ _ (if (rules.fluidAt s.world pos).fluidId =
      (kind.state level).fluidId then _ else _) _ pos
    have hfluid : rules.fluidAt s.world pos = kind.state level := by
      rw [fluidAt, hstate]
      rfl
    rw [if_pos (by rw [hfluid]), tick_fluidId]
    change Callbacks.Repairs _ _ (rules.baseTick kind pos _ (rules.fluidAt s.world pos)) _ pos
    rw [hfluid, hstate]
    exact repairs_baseTick (s := ⟨s.world, s.ticks.erase _⟩) hstate hlevel hne

theorem getBlockState_update {p : BlockPos} (hp : p ≠ pos) (state : FluidBlock β) :
    rules.getBlockState (update blocks pos state) p = rules.getBlockState blocks p := by
  unfold getBlockState
  rw [update_of_ne hp]

theorem mem_all (direction : Direction) : direction ∈ Direction.all := by
  cases direction <;> decide

theorem keeps_rests : rules.callbacks.Keeps rules.Rests where
  mono := by
    intro blocks ticks ticks' pos hsub hrests kind level hstate hlevel hne
    exact hsub (hrests kind level hstate hlevel hne)
  update := by
    intro blocks ticks p pos value hpos hbeside hrests kind level hstate hlevel hne
    rw [getBlockState_update hpos] at hstate
    refine hrests kind level hstate hlevel ?_
    have hsame : rules.getNewLiquid (update blocks pos value) p (.liquid kind level) kind =
        rules.getNewLiquid blocks p (.liquid kind level) kind := by
      apply getNewLiquid_congr
      intro direction
      apply getBlockState_update
      rintro rfl
      refine hbeside (List.mem_map.mpr ⟨direction.opposite, mem_all _, ?_⟩)
      exact p.relative_opposite direction
    rwa [← hsame]
  callback := fun s pos callback => rests_or_repairs_callback callback
  tick := fun s pos tick _ => rests_or_repairs_tick tick

/-- A step upward, or sideways to a larger amount, within a fluid. -/
def Upstream (rules : FluidRules β) (blocks : FluidWorld β) (kind : Liquid) (p q : BlockPos) :
    Prop :=
  kind.isSame (rules.fluidAt blocks q).fluidId ∧
    (q = p.relative .up ∨ (∃ direction ∈ sides, q = p.relative direction) ∧
      (rules.fluidAt blocks p).amount < (rules.fluidAt blocks q).amount)

def distanceBound (rules : FluidRules β) (blocks : FluidWorld β) (pos : BlockPos) : ℕ :=
  (2 ^ 31 - pos.y.toInt).toNat * 9 + (8 - (rules.fluidAt blocks pos).amount)

theorem Upstream.distanceBound_lt {p q : BlockPos} (h : rules.Upstream blocks kind p q)
    (hp : rules.isInValidBounds p) :
    rules.distanceBound blocks q < rules.distanceBound blocks p := by
  have hlt := rules.lt_of_isInValidBounds p hp
  have hamount := rules.amount_le (rules.getBlockState blocks q)
  obtain ⟨-, rfl | ⟨⟨direction, hmem, rfl⟩, hmore⟩⟩ := h
  · have hup : (p.relative .up).y.toInt = p.y.toInt + 1 := by
      have hlow := p.y.le_toInt
      change (p.y + 1).toInt = _
      rw [Int32.toInt_add, show (1 : Int32).toInt = 1 from rfl,
        Int.bmod_eq_of_le (by omega) (by omega)]
    unfold distanceBound
    rw [hup]
    omega
  · have hy : (p.relative direction).y = p.y := by
      cases direction <;> simp [sides] at hmem <;> exact Int32.add_zero p.y
    unfold distanceBound
    rw [hy]
    unfold fluidAt at hmore ⊢
    omega

theorem exists_upstream (h : rules.getBlockState blocks pos = .liquid kind level)
    (hlevel : level ≠ 0)
    (heq : rules.getNewLiquid blocks pos (.liquid kind level) kind = kind.state level) :
    ∃ q, rules.Upstream blocks kind pos q := by
  have hfluid : rules.fluidAt blocks pos = kind.state level := by
    rw [fluidAt, h]
    rfl
  have hnew := newLiquid_getNewLiquid rules blocks pos (.liquid kind level) kind
  have hsource : ¬ (kind.state level).isSource := mt (Liquid.state_isSource level).mp hlevel
  have hdrop := rules.one_le_dropOff kind
  rw [heq, ← hfluid] at hnew
  rw [← hfluid] at hsource
  have hholds : kind.Holds (rules.fluidAt blocks pos) := hfluid ▸ kind.holds_state level
  generalize hcurrent : rules.fluidAt blocks pos = current at hnew hsource hholds
  cases hnew with
  | empty => cases hholds.not_isEmpty
  | source => cases kind <;> exact absurd rfl hsource
  | falling habove => exact ⟨_, habove, .inl rfl⟩
  | @flowing amount direction hpos hmem hincoming =>
    refine ⟨_, hincoming.1, .inr ⟨⟨direction, hmem, rfl⟩, ?_⟩⟩
    rw [hcurrent]
    change amount < _
    rcases hincoming.2 with ⟨hneighbor, rfl⟩ | ⟨-, rfl⟩
    · rw [fluidAt, amount_of_isSource hneighbor]
      omega
    · omega

theorem source_or_flow (h : kind.isSame (rules.fluidAt blocks pos).fluidId) :
    (rules.fluidAt blocks pos).isSource ∨
      ∃ level, rules.getBlockState blocks pos = .liquid kind level ∧ level ≠ 0 := by
  unfold fluidAt at h ⊢
  cases hstate : rules.getBlockState blocks pos with
  | liquid other level =>
    rw [hstate] at h
    obtain rfl := (Liquid.isSame_fluid (other.holds_state level)).mp h
    by_cases hlevel : level = 0
    · exact .inl ((Liquid.state_isSource level).mpr hlevel)
    · exact .inr ⟨level, rfl, hlevel⟩
  | other block =>
    rw [hstate] at h
    rcases rules.fluidState_cases block with hempty | ⟨hsource, -⟩
    · rw [getFluidState, hempty] at h
      cases kind <;> cases h
    · exact .inl hsource

/-- Where every flow is what its neighbours make of it, each comes from a source of its fluid. -/
theorem comes_from_source (hrest : ∀ pos kind level,
      rules.getBlockState blocks pos = .liquid kind level → level ≠ 0 →
      rules.getNewLiquid blocks pos (.liquid kind level) kind = kind.state level)
    (h : rules.getBlockState blocks pos = .liquid kind level) (hlevel : level ≠ 0) :
    ∃ q, Relation.ReflTransGen (rules.Upstream blocks kind) pos q ∧
      kind.isSame (rules.fluidAt blocks q).fluidId ∧ (rules.fluidAt blocks q).isSource := by
  obtain ⟨bound, hbound⟩ : ∃ bound, rules.distanceBound blocks pos = bound := ⟨_, rfl⟩
  induction bound using Nat.strong_induction_on generalizing pos level with
  | _ bound ih =>
    obtain ⟨next, hnext⟩ := exists_upstream h hlevel (hrest pos kind level h hlevel)
    rcases source_or_flow hnext.1 with hsource | ⟨level', hflow, hlevel'⟩
    · exact ⟨next, .single hnext, hnext.1, hsource⟩
    · have hlt := hnext.distanceBound_lt (isInValidBounds_of_liquid h).1
      rw [hbound] at hlt
      obtain ⟨q, hchain, hq⟩ := ih _ hlt hflow hlevel' rfl
      exact ⟨q, .head hnext hchain, hq⟩

/-- Over any writes and ticks, a flow that is not what its neighbours make of it has a pending
tick; where no tick is pending, every flow comes from a source. -/
theorem flows_settle (rules : FluidRules β) {s s' : Ticking BlockPos (FluidBlock β) FluidTick}
    (hstart : ∀ pos kind level, rules.getBlockState s.world pos = .liquid kind level → level ≠ 0 →
      (pos, (kind.state level).fluidId) ∈ s.ticks)
    (hsteps : Relation.ReflTransGen rules.callbacks.Step s s') :
    (∀ pos kind level, rules.getBlockState s'.world pos = .liquid kind level → level ≠ 0 →
      rules.getNewLiquid s'.world pos (.liquid kind level) kind ≠ kind.state level →
      (pos, (kind.state level).fluidId) ∈ s'.ticks) ∧
    (s'.ticks = ∅ → ∀ pos kind level,
      rules.getBlockState s'.world pos = .liquid kind level → level ≠ 0 →
      rules.getNewLiquid s'.world pos (.liquid kind level) kind = kind.state level ∧
      ∃ q, Relation.ReflTransGen (rules.Upstream s'.world kind) pos q ∧
        kind.isSame (rules.fluidAt s'.world q).fluidId ∧
        (rules.fluidAt s'.world q).isSource) := by
  have hrests : ∀ pos, rules.Rests s'.world s'.ticks pos := by
    apply keeps_rests.steps hsteps
    intro pos kind level hstate hlevel _
    exact hstart pos kind level hstate hlevel
  refine ⟨hrests, fun hticks => ?_⟩
  have hrest : ∀ pos kind level, rules.getBlockState s'.world pos = .liquid kind level →
      level ≠ 0 → rules.getNewLiquid s'.world pos (.liquid kind level) kind = kind.state level := by
    intro pos kind level hstate hlevel
    by_contra hne
    have hmem := hrests pos kind level hstate hlevel hne
    rw [hticks] at hmem
    exact absurd hmem (notMem_empty _)
  intro pos kind level hstate hlevel
  exact ⟨hrest pos kind level hstate hlevel, comes_from_source hrest hstate hlevel⟩

/-- Blocks without behaviour of their own. -/
inductive PlainBlock where
  | air
  | stone
  | obsidian
  | cobblestone
  | basalt
  deriving DecidableEq

def plainRules : FluidRules PlainBlock where
  waterSourceConversion := true
  lavaSourceConversion := false
  fastLava := false
  isInValidBounds pos := decide (-64 ≤ pos.y.toInt ∧ pos.y.toInt < 320)
  voidAir := .air
  air := .air
  stone := .stone
  obsidian := .obsidian
  cobblestone := .cobblestone
  basalt := .basalt
  fluidState _ := .empty
  isSolid block := block ≠ .air
  blocksMotion block := block ≠ .air
  isSoulSoil _ := false
  isBlueIce _ := false
  isLiquidContainer _ := false
  isFluidExcludedBlock _ := false
  canPlaceLiquid _ _ := false
  setWaterlogged _ := none
  mergedOffsetFaceOccludes _ state _ neighborState _ :=
    match state, neighborState with
    | .liquid _ _, .liquid _ _ => false
    | .liquid _ _, .other block => block ≠ .air
    | .other block, .liquid _ _ => block ≠ .air
    | .other block, .other neighbor => block ≠ .air || neighbor ≠ .air
  onPlace _ _ := .done
  placeLiquid _ _ _ := .done
  handleNeighborChanged _ _ := .done
  fluidState_cases _ := .inl rfl
  lt_of_isInValidBounds pos h := (of_decide_eq_true h).2.trans (by decide)

def loneFlow : Ticking BlockPos (FluidBlock PlainBlock) FluidTick where
  world pos := if pos = ⟨0, 64, 0⟩ then .liquid .water 1 else .other .air
  ticks := {(⟨0, 64, 0⟩, .flowingWater)}

def besideStone : Ticking BlockPos (FluidBlock PlainBlock) FluidTick where
  world := update loneFlow.world ⟨1, 64, 0⟩ (.other .stone)
  ticks := loneFlow.ticks

theorem step_besideStone : plainRules.callbacks.Step loneFlow besideStone := by
  have hplain : ∀ pos block, plainRules.getBlockState besideStone.world pos = .other block →
      plainRules.callbacks.Runs (.script (plainRules.callbacks.onNeighborChanged pos)) besideStone
        besideStone := by
    intro pos block h
    refine .read ?_
    rw [h]
    exact .done
  refine .write ⟨1, 64, 0⟩ (.other .stone) (.changed _ rfl nofun (.refl _) ?_)
  refine .cons .done (.cons (hplain _ .air rfl) (.cons (hplain _ .air rfl)
    (.cons (hplain _ .air rfl) (.cons (hplain _ .air rfl) (.cons ?_ (.cons (hplain _ .air rfl)
      .nil))))))
  exact .read (.read (.schedule .done))

theorem flows_settle_besideStone :
    ((⟨0, 64, 0⟩ : BlockPos), FluidRef.flowingWater) ∈ besideStone.ticks := by
  refine (flows_settle plainRules ?_ (.single step_besideStone)).1 ⟨0, 64, 0⟩ .water 1 rfl
    (by decide) (by decide)
  intro pos kind level hstate _
  obtain ⟨-, hblock⟩ := isInValidBounds_of_liquid hstate
  simp only [loneFlow] at hblock ⊢
  split_ifs at hblock with hpos
  cases hblock
  rw [hpos]
  decide

end FluidRules

end Steel
